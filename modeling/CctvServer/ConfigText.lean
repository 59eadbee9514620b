import CctvServer.JsonRoundTrip
import CctvServer.Overlay

namespace CctvServer

namespace JsonParser

open JsonText JsonLexer Json

variable {F : Floats}

theorem parse_nil : parse F [] = none := by
  cases h : parse F [] with
  | none => rfl
  | some x =>
    obtain ⟨m, w, t, v, hb, -, -, -, hx, -, -⟩ := denotes_of_parse h
    obtain ⟨c, u, rfl, -⟩ := head_of_denotes hx
    simp at hb

theorem parse_object {members : List (Bytes × Json)} {t : Bytes} (hc : Canonical F (.obj members))
    (h : (Json.obj members).dump = some t) (rest : Bytes) :
    parse F (t ++ rest) = some (.obj members, rest) := by
  obtain ⟨u, -, rfl⟩ := Option.map_eq_some_iff.mp h
  exact parse_dump hc h (ends_of_head (by decide) (by decide) _ _)

/-- A beginning of the printed text of an object is no text of its own. -/
theorem parse_torn {members : List (Bytes × Json)} {t p : Bytes} (hc : Canonical F (.obj members))
    (h : (Json.obj members).dump = some t) (hp : p <+: t) (hne : p ≠ t) : parse F p = none := by
  cases hparse : parse F p with
  | none => rfl
  | some x =>
    obtain ⟨v, rest⟩ := x
    obtain ⟨r, rfl⟩ := hp
    have hr : r ≠ [] := by
      rintro rfl
      exact hne (List.append_nil p).symm
    obtain ⟨m, w, u, y, rfl, hm, hw, hutf, hy, hv, -⟩ := denotes_of_parse hparse
    obtain ⟨t', -, ht'⟩ := Option.map_eq_some_iff.mp h
    -- the text begins with the bracket, without a mark or a blank
    obtain rfl : m = [] := hm.resolve_right fun hm => by
      subst hm
      exact absurd (List.cons.inj ht').1 (by decide)
    obtain rfl : w = [] := by
      cases w with
      | nil => rfl
      | cons d w =>
        have hd : isBlank 123 = true := (List.cons.inj ht').1 ▸ hw d List.mem_cons_self
        exact absurd hd (by decide)
    obtain ⟨c, u', rfl, -⟩ := head_of_denotes hy
    obtain rfl : 123 = c := (List.cons.inj ht').1
    have hlong := parse_of_denotes (r := rest ++ r) hm hw hutf hy hv
      (ends_of_head (by decide) (by decide) _ _)
    have hwhole := parse_object hc h []
    rw [List.append_nil, List.append_assoc, hlong] at hwhole
    simp only [Option.some.injEq, Prod.mk.injEq, List.append_eq_nil_iff] at hwhole
    exact absurd hwhole.2.2 hr

theorem canonical_setKey {key : Bytes} {v : Json} {members : List (Bytes × Json)}
    (hv : Canonical F v) (h : Canonical F (.obj members)) :
    Canonical F (.obj (setKey key v members)) :=
  ⟨h.1.setKey, canonicalMembers_setKey hv h.2⟩

theorem canonical_eraseKey {key : Bytes} {members : List (Bytes × Json)}
    (h : Canonical F (.obj members)) : Canonical F (.obj (eraseKey key members)) := by
  refine ⟨h.1.eraseKey, canonicalMembers_iff.mpr fun p hp => ?_⟩
  exact canonicalMembers_iff.mp h.2 p (List.mem_filter.mp hp).1

end JsonParser

namespace CommandHandler

open JsonParser

variable {F : Floats}

theorem canonical_assign {config config' v : Json} {key : String} (hv : Canonical F v)
    (hc : Canonical F config) (h : assign config key v = some config') : Canonical F config' := by
  unfold assign at h
  split at h
  · cases h
    exact canonical_setKey hv hc
  · cases h
    exact canonical_setKey hv ⟨.nil, trivial⟩
  · cases h

theorem canonical_erase {config : Json} {key : String} (hc : Canonical F config) :
    Canonical F (erase config key) := by
  unfold erase
  split
  · exact canonical_eraseKey hc
  · exact hc

theorem object_assign {config config' v : Json} {key : String}
    (h : assign config key v = some config') : ∃ members, config' = .obj members := by
  unfold assign at h
  split at h
  · cases h
    exact ⟨_, rfl⟩
  · cases h
    exact ⟨_, rfl⟩
  · cases h

/-- What CHANGE_FRAME makes of a configuration: it writes a boolean, or the name of a mode with
a level up to 100 or without. -/
inductive Edit (config config' : Json) : Prop
  | flag (key : String) (b : Bool) (set : assign config key (.bool b) = some config')
  | sharp (mode : Bytes) (level : ℤ) (config₁ : Json) (range : 0 ≤ level ∧ level ≤ 100)
      (set : assign config "mode" (.str mode) = some config₁)
      (setLevel : assign config₁ "sharpness_level" (.int level) = some config')
  | plain (mode : Bytes) (config₁ : Json) (set : assign config "mode" (.str mode) = some config₁)
      (erased : config' = erase config₁ "sharpness_level")

theorem edit_of_changeFlag {key : String} {iss : IStream} {config config' : Json}
    (h : changeFlag key iss config = .accept config') : Edit config config' := by
  unfold changeFlag at h
  dsimp only at h
  split at h
  · cases h
  · cases hassign : assign config key (.bool ((iss.int 0).1 ≠ 0)) with
    | none =>
      rw [hassign] at h
      cases h
    | some config₁ =>
      rw [hassign] at h
      cases h
      exact .flag _ _ hassign

theorem edit_of_changeMode {iss : IStream} {config config' : Json}
    (h : changeMode iss config = .accept config') : Edit config config' := by
  unfold changeMode at h
  dsimp only at h
  split at h
  · cases h
  cases hassign : assign config "mode" (.str iss.word.1) with
  | none =>
    rw [hassign] at h
    cases h
  | some config₁ =>
    rw [hassign] at h
    dsimp only at h
    split_ifs at h with hsharp hrange
    · cases hlevel : assign config₁ "sharpness_level" (.int (iss.word.2.int 0).1) with
      | none =>
        rw [hlevel] at h
        cases h
      | some config₂ =>
        rw [hlevel] at h
        cases h
        refine .sharp _ _ _ ⟨?_, ?_⟩ hassign hlevel <;> omega
    · cases h
      exact .plain _ _ hassign rfl

theorem edit_of_frameEdit {payload : Bytes} {config config' : Json}
    (h : frameEdit payload config = .accept config') : Edit config config' := by
  unfold frameEdit changeFrame at h
  split_ifs at h
  · exact edit_of_changeFlag h
  · exact edit_of_changeFlag h
  · exact edit_of_changeMode h

theorem Edit.canonical {config config' : Json} (h : Edit config config')
    (hc : Canonical F config) : Canonical F config' := by
  cases h with
  | flag key b set => exact canonical_assign (by trivial) hc set
  | sharp mode level config₁ range set setLevel =>
    have hc' : Canonical F config₁ := canonical_assign (by trivial) hc set
    refine canonical_assign (v := .int _) ⟨?_, ?_⟩ hc' setLevel <;> omega
  | plain mode config₁ set erased =>
    rw [erased]
    exact canonical_erase (canonical_assign (by trivial) hc set)

theorem Edit.object {config config' : Json} (h : Edit config config') :
    ∃ members, config' = .obj members := by
  cases h with
  | flag key b set => exact object_assign set
  | sharp mode level config₁ range set setLevel => exact object_assign setLevel
  | plain mode config₁ set erased =>
    obtain ⟨members, rfl⟩ := object_assign set
    exact ⟨_, erased⟩

end CommandHandler

namespace Platform

open JsonParser

/-- The platform whose configuration files are read by the parser of the library. -/
def parsing (P : Platform) (F : Floats) : Platform :=
  { P with
    parseJson := fun b => (parse F b).map Prod.fst
    parseJson_utf8 := fun b j h => by
      obtain ⟨⟨v, rest⟩, hx, rfl⟩ := Option.map_eq_some_iff.mp h
      exact (canonical_of_parse hx).2 }

variable {P : Platform} {F : Floats}

theorem parsing_nil : (P.parsing F).parseJson [] = none := by
  change (parse F []).map Prod.fst = none
  rw [parse_nil]
  rfl

theorem canonical_of_parsing {b : Bytes} {v : Json} (h : (P.parsing F).parseJson b = some v) :
    Canonical F v := by
  obtain ⟨⟨v, rest⟩, hx, rfl⟩ := Option.map_eq_some_iff.mp h
  exact (canonical_of_parse hx).1

/-- What stands behind the printed text of an object is not looked at. -/
theorem parsing_object {members : List (Bytes × Json)} {t : Bytes}
    (hc : Canonical F (.obj members)) (h : (Json.obj members).dump = some t) (rest : Bytes) :
    (P.parsing F).parseJson (t ++ rest) = some (.obj members) := by
  change (parse F (t ++ rest)).map Prod.fst = some (.obj members)
  rw [parse_object hc h]
  rfl

theorem parsing_torn {members : List (Bytes × Json)} {t p : Bytes}
    (hc : Canonical F (.obj members)) (h : (Json.obj members).dump = some t) (hp : p <+: t)
    (hne : p ≠ t) : (P.parsing F).parseJson p = none := by
  change (parse F p).map Prod.fst = none
  rw [parse_torn hc h hp hne]
  rfl

end Platform

section Clients

open JsonParser CommandHandler

variable {P : Platform} {F : Floats} {ι : Type} {request : ι → FrameRequest} {first : Json}

theorem Made.canonical {config : Json} (h : Made request first config) (hf : Canonical F first) :
    Canonical F config := by
  induction h with
  | first => exact hf
  | edited _ _ edit ih => exact (edit_of_frameEdit edit).canonical ih

theorem Made.object {config : Json} (h : Made request first config)
    (hf : ∃ members, first = .obj members) : ∃ members, config = .obj members := by
  cases h with
  | first => exact hf
  | edited _ _ edit => exact (edit_of_frameEdit edit).object

/-- A text that is read as a configuration which the requests can make. -/
def Configures (P : Platform) (request : ι → FrameRequest) (first : Json) (b : Bytes) : Prop :=
  ∃ config, P.parseJson b = some config ∧ Made request first config

/-- What a request has read is empty or a configuration, and what it is about to write is
a configuration. -/
def Sane (P : Platform) (request : ι → FrameRequest) (first : Json) : FramePhase → Prop
  | .read text => text = [] ∨ Configures P request first text
  | .holding new => ∃ config, config.dump = some new ∧ Made request first config
  | _ => True

/-- The overlay file is empty only while some request is about to write it. -/
structure Uncorrupted (P : Platform) (request : ι → FrameRequest) (first : Json) (text : Bytes)
    (phase : ι → FramePhase) : Prop where
  content : text = [] ∨ Configures P request first text
  phases : ∀ i, Sane P request first (phase i)
  gap : text = [] → ∃ i new, phase i = .holding new

theorem Configures.ne_nil {b : Bytes} (h : Configures (P.parsing F) request first b) : b ≠ [] := by
  rintro rfl
  obtain ⟨config, hparse, -⟩ := h
  rw [Platform.parsing_nil] at hparse
  cases hparse

/-- The text of a configuration over the end of an older one. -/
theorem configures_writeAt {fs : FileSystem} {ino : ℕ} {config : Json} {new : Bytes}
    (hcanonical : Canonical F first) (hobject : ∃ members, first = .obj members)
    (hmade : Made request first config) (hdump : config.dump = some new) :
    Configures (P.parsing F) request first ((fs.writeAt ino 0 new).content ino) := by
  obtain ⟨members, rfl⟩ := hmade.object hobject
  refine ⟨_, ?_, hmade⟩
  have hcontent : (fs.writeAt ino 0 new).content ino = new ++ (fs.content ino).drop new.length := by
    simp [FileSystem.writeAt, FileSystem.splice]
  rw [hcontent]
  exact Platform.parsing_object (hmade.canonical hcanonical) hdump _

variable [DecidableEq ι]

theorem sane_update {phase : ι → FramePhase} {i : ι} {p : FramePhase}
    (h : ∀ i, Sane P request first (phase i)) (hp : Sane P request first p) (j : ι) :
    Sane P request first (Function.update phase i p j) :=
  (Function.forall_update_iff phase fun _ q => Sane P request first q).mpr ⟨hp, fun j _ => h j⟩ j

theorem Uncorrupted.quiet {content : Bytes} {phase : ι → FramePhase} {i : ι} {p : FramePhase}
    (h : Uncorrupted P request first content phase) (hp : Sane P request first p)
    (hi : ∀ new, phase i ≠ .holding new) :
    Uncorrupted P request first content (Function.update phase i p) := by
  refine ⟨h.content, sane_update h.phases hp, fun hempty => ?_⟩
  obtain ⟨j, new, hj⟩ := h.gap hempty
  have hji : j ≠ i := by
    rintro rfl
    exact hi new hj
  exact ⟨j, new, by rw [Function.update_of_ne hji, hj]⟩

theorem Uncorrupted.step {fs fs' : FileSystem} {ino : ℕ} {phase : ι → FramePhase} {i : ι}
    {e : Event (Res (P := P.parsing F))} {p : FramePhase} (hcanonical : Canonical F first)
    (hobject : ∃ members, first = .obj members)
    (h : Uncorrupted (P.parsing F) request first (fs.content ino) phase)
    (hstep : FrameStep ino (request i) fs (phase i) e fs' p) :
    Uncorrupted (P.parsing F) request first (fs'.content ino) (Function.update phase i p) := by
  generalize hi : phase i = p₀ at hstep
  cases hstep with
  | openRead => exact h.quiet trivial (by simp [hi])
  | read => exact h.quiet h.content (by simp [hi])
  | @truncate text new hedit =>
    have hsane := h.phases i
    rw [hi] at hsane
    cases hreq : request i with
    | get =>
      rw [hreq] at hedit
      cases hedit
    | change payload =>
      rw [hreq] at hedit
      obtain ⟨-, config, config', hparse, hf, hdump⟩ := FrameRequest.edit_change hedit
      -- the empty text has no configuration to be changed
      have hmade : Made request first config := by
        rcases hsane with rfl | ⟨config₁, hparse₁, hmade⟩
        · rw [Platform.parsing_nil] at hparse
          cases hparse
        · rw [hparse, Option.some.injEq] at hparse₁
          exact hparse₁ ▸ hmade
      have hnew : Sane (P.parsing F) request first (.holding new) :=
        ⟨config', hdump, hmade.edited hreq hf⟩
      refine ⟨.inl ?_, sane_update h.phases hnew, fun _ => ⟨i, new, Function.update_self _ _ _⟩⟩
      rw [FileSystem.setContent_content, Function.update_self]
  | @write new ok =>
    have hsane := h.phases i
    rw [hi] at hsane
    obtain ⟨config, hdump, hmade⟩ := hsane
    have hwritten : Configures (P.parsing F) request first
        ((fs.writeAt ino 0 new).content ino) :=
      configures_writeAt hcanonical hobject hmade hdump
    exact ⟨.inr hwritten, sane_update h.phases trivial, fun hempty =>
      absurd hempty hwritten.ne_nil⟩
  | close => exact h.quiet trivial (by simp [hi])

theorem calls_write_of_holding {p : Server P Bytes} {ino : ℕ} {f : Frame} {new : Bytes}
    (h : p.Safe (frameMonitor P ino) (Settled P) (fun _ => False) f)
    (hphase : f.phase = .holding new) : ∃ k, p = .call (.write ino 0 new) k := by
  obtain ⟨request, phase⟩ := f
  obtain rfl : phase = .holding new := hphase
  cases p with
  | ret reply => cases request <;> exact h.elim
  | throw => exact h.elim
  | call o k =>
    have ha := h.1
    cases o with
    | write ino' off b =>
      obtain ⟨rfl, rfl, rfl⟩ := ha
      exact ⟨k, rfl⟩
    | _ => exact ha.elim

structure OverlayKept (request : ι → FrameRequest) (first : Json) (c : Clients P ι Bytes) :
    Prop where
  text : ∃ b, overlayText c.shared.fs = some b ∧ (b = [] ∨ Configures P request first b)
  gap : overlayText c.shared.fs = some [] → ∃ i ino config new k, Made request first config ∧
    config.dump = some new ∧ c.prog i = .call (.write ino 0 new) k
  final : (∀ i, ∃ reply, c.prog i = .ret reply) →
    ∃ b, overlayText c.shared.fs = some b ∧ Configures P request first b
  retrieved : ∀ i reply, request i = .get → c.prog i = .ret reply → reply = unparsed ∨
    ∃ config, Made request first config ∧
      .ret reply = dataReply (P := P) "Overlay config retrieved" config
  alive : ∀ i, c.prog i ≠ .throw

/-- However the requests overlap, and whichever of their changes get lost, the overlay file
never holds anything but a configuration that they can make, and is empty only in between. -/
theorem overlay_is_never_corrupted {c₀ c : Clients (P.parsing F) ι Bytes} {ino : ℕ}
    {members : List (Bytes × Json)} (hprog : ∀ i, c₀.prog i = (request i).serve)
    (htrace : c₀.trace = []) (hfile : OverlayFile c₀.shared.fs ino)
    (hfirst : (P.parsing F).parseJson (c₀.shared.fs.content ino) = some (.obj members))
    {ok : Clients (P.parsing F) ι Bytes → ι → Event (Res (P := P.parsing F)) → Prop}
    (h : Config.Reach (World.Serves World.Faultless) ok c₀ c) :
    OverlayKept request (.obj members) c := by
  have hcanonical := Platform.canonical_of_parsing hfirst
  have hbegin : Configures (P.parsing F) request (.obj members) (c₀.shared.fs.content ino) :=
    ⟨_, hfirst, .first⟩
  obtain ⟨hsafe, hg, hc, hkept⟩ := h.monitored (frameMonitor (P.parsing F) ino)
    (Q := fun _ => Settled (P.parsing F)) (T := fun _ _ => False) (fun i => ⟨request i, .start⟩)
    (I := fun c g => (∀ i, (g i).request = request i) ∧ OverlayFile c.shared.fs ino ∧
      Uncorrupted (P.parsing F) request (.obj members) (c.shared.fs.content ino)
        fun i => (g i).phase) htrace
    (fun i => by
      rw [hprog]
      exact safe_serve _)
    ⟨fun _ => rfl, hfile, .inr hbegin, fun _ => trivial, fun hempty => absurd hempty hbegin.ne_nil⟩
    (fun c g i o r s p hI ha hE _ _ => by
      obtain ⟨hg, hc, hkept⟩ := hI
      have hstep := frameStep_of_admits hc ha hE
      rw [hg i] at hstep
      refine ⟨hstep.expects fun config hconfig => ?_, ?_, hstep.file hc, ?_⟩
      · rcases hkept.content with hempty | ⟨config', hparse, hmade⟩
        · rw [hempty, Platform.parsing_nil] at hconfig
          cases hconfig
        · rw [hconfig, Option.some.injEq] at hparse
          exact hparse ▸ hmade.object ⟨_, rfl⟩
      · exact (Function.forall_update_iff g fun j f => f.request = request j).mpr
          ⟨hg i, fun j _ => hg j⟩
      · have hphase :
            (fun j =>
              (Function.update g i ((frameMonitor (P.parsing F) ino).next (g i) o r) j).phase)
              = Function.update (fun j => (g j).phase) i
                ((frameMonitor (P.parsing F) ino).next (g i) o r).phase :=
          Function.comp_update Frame.phase g i _
        rw [hphase]
        exact hkept.step hcanonical ⟨_, rfl⟩ hstep)
  have hsettled : ∀ i reply, c.prog i = .ret reply → Settled (P.parsing F)
      (c.ghosts (frameMonitor (P.parsing F) ino) (fun i => ⟨request i, .start⟩) i) reply := by
    intro i reply hi
    have hs := hsafe i
    rw [hi, Prog.safe_ret] at hs
    exact hs
  have hgap : c.shared.fs.content ino = [] → ∃ i config new k, Made request (.obj members) config ∧
      config.dump = some new ∧ c.prog i = .call (.write ino 0 new) k := by
    intro hempty
    obtain ⟨i, new, hphase⟩ := hkept.gap hempty
    have hsane := hkept.phases i
    rw [hphase] at hsane
    obtain ⟨config, hdump, hmade⟩ := hsane
    obtain ⟨k, hk⟩ := calls_write_of_holding (hsafe i) hphase
    exact ⟨i, config, new, k, hmade, hdump, hk⟩
  refine ⟨⟨_, hc.text, hkept.content⟩, fun hempty => ?_, fun hall => ⟨_, hc.text, ?_⟩,
    fun i reply hreq hi => ?_, fun i hi => ?_⟩
  · rw [hc.text, Option.some.injEq] at hempty
    obtain ⟨i, config, new, k, hmade, hdump, hk⟩ := hgap hempty
    exact ⟨i, ino, config, new, k, hmade, hdump, hk⟩
  · refine hkept.content.resolve_left fun hempty => ?_
    -- a request that still has to write is not answered
    obtain ⟨i, _, _, _, _, _, hk⟩ := hgap hempty
    obtain ⟨reply, hi⟩ := hall i
    rw [hk] at hi
    cases hi
  · have hs := hsettled i reply hi
    have hsane := hkept.phases i
    rw [Settled, (hg i).trans hreq] at hs
    cases hphase : (c.ghosts (frameMonitor (P.parsing F) ino)
        (fun i => ⟨request i, .start⟩) i).phase with
    | read text =>
      rw [hphase] at hs hsane
      rcases hsane with rfl | ⟨config, hparse, hmade⟩
      · exact .inl (by simpa [Platform.parsing_nil] using hs)
      · exact .inr ⟨config, hmade, by simpa [hparse] using hs⟩
    | _ =>
      rw [hphase] at hs
      exact hs.elim
  · have hs := hsafe i
    rw [hi] at hs
    exact hs

end Clients

def parsingClients : Clients (Platform.reference.parsing Reference.floats) (Fin 3) Bytes where
  shared := ⟨shmFs, Reference.emptyDb _⟩
  loc _ := ⟨[], []⟩
  prog i := (frameRequest i).serve
  trace := []

theorem parsing_clash_fits :
    parsingClients.Fits World.answer (fun _ _ _ => true) clash = true := by decide +kernel

/-- A change gets lost, and the file holds the other one. -/
theorem lost_change_keeps_file :
    ∃ c, Config.Reach (World.Serves World.Faultless) (fun _ _ _ => true = true) parsingClients c ∧
      OverlayKept frameRequest (.obj []) c ∧ c.prog 0 = .ret updated ∧ c.prog 1 = .ret updated := by
  have hreach : Config.Reach (World.Serves World.Faultless) (fun _ _ _ => true = true)
      parsingClients _ :=
    Clients.follow_reach clash _ parsing_clash_fits (fun _ _ h => h) (by decide)
  have hfile : OverlayFile parsingClients.shared.fs 2 := ⟨by decide, by decide⟩
  have hparse : (Platform.reference.parsing Reference.floats).parseJson
      (parsingClients.shared.fs.content 2) = some (.obj []) := by
    rfl
  exact ⟨_, hreach, overlay_is_never_corrupted (fun _ => rfl) rfl hfile hparse hreach, rfl, rfl⟩

end CctvServer
