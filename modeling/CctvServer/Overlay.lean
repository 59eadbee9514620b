import CctvServer.Monitor
import CctvServer.Reference
import CctvServer.Rendering
import Mathlib.Data.Fintype.Basic
import Mathlib.Data.List.Permutation

namespace CctvServer

open CommandHandler

variable {P : Platform}

/-- A request for a change of the overlay configuration, or for the configuration. -/
inductive FrameRequest
  | change (payload : Bytes)
  | get

namespace FrameRequest

def serve : FrameRequest → Server P Bytes
  | change payload => handleChangeFrame payload
  | get => handleGetFrame

def edit (P : Platform) : FrameRequest → Bytes → Option Bytes
  | change payload, text =>
      if ((IStream.ofBytes payload).int 0).2.fail then none
      else (P.parseJson text).bind fun config => match frameEdit payload config with
        | .accept config' => config'.dump
        | _ => none
  | get, _ => none

theorem edit_change {P : Platform} {payload text new : Bytes}
    (h : (change payload).edit P text = some new) :
    ((IStream.ofBytes payload).int 0).2.fail = false ∧ ∃ config config',
      P.parseJson text = some config ∧ frameEdit payload config = .accept config' ∧
        config'.dump = some new := by
  rw [edit] at h
  split at h
  · cases h
  · rename_i hfail
    obtain ⟨config, hparse, hconfig⟩ := Option.bind_eq_some_iff.mp h
    refine ⟨Bool.eq_false_iff.mpr hfail, config, ?_⟩
    cases hedit : frameEdit payload config with
    | reject message => simp [hedit] at hconfig
    | throw => simp [hedit] at hconfig
    | accept config' =>
      rw [hedit] at hconfig
      exact ⟨config', hparse, rfl, hconfig⟩

end FrameRequest

def updated : Bytes := successReply "Overlay config updated"

def unparsed : Bytes := errorReply 500 "Failed to parse overlay_config"

theorem errorReply_ne_updated (code : ℕ) (message : String) :
    errorReply code message ≠ updated := by
  intro h
  have hprefix : ascii "\x7b\"status\": \"error" <+: errorReply code message := by
    simp only [errorReply, reply, ascii_append, List.append_assoc]
    exact ⟨_, rfl⟩
  rw [h] at hprefix
  exact absurd hprefix (by decide)

/-- Where a request is: what it has read, and what it is about to write. -/
inductive FramePhase
  | start
  | opened
  | read (text : Bytes)
  | holding (new : Bytes)
  | written

structure Frame where
  request : FrameRequest
  phase : FramePhase

/-- The calls of a request for the overlay file, which is file `ino`. -/
def frameMonitor (P : Platform) (ino : ℕ) : Monitor (Res (P := P)) Frame where
  admits f o := match f.phase, o with
    | .start, .openRead path => path = overlayConfig
    | .opened, .readAll e => e = .file ino
    | .read text, .openWrite path => path = overlayConfig ∧ (f.request.edit P text).isSome = true
    | .holding new, .write ino' off b => ino' = ino ∧ off = 0 ∧ b = new
    | .written, .closeWrite _ => True
    | _, _ => False
  expects _ o r := match (⟨o, r⟩ : Event (Res (P := P))) with
    | ⟨.openRead _, e⟩ => e = some (.file ino)
    | ⟨.readAll _, text⟩ => ∃ b, text = some b ∧
        ∀ config, P.parseJson b = some config → ∃ members, config = .obj members
    | ⟨.openWrite _, i⟩ => i = some ino
    | _ => True
  next f o r := { f with phase := match f.phase, (⟨o, r⟩ : Event (Res (P := P))) with
    | .start, ⟨.openRead _, _⟩ => .opened
    | .opened, ⟨.readAll _, some text⟩ => .read text
    | .read text, ⟨.openWrite _, _⟩ => match f.request.edit P text with
        | some new => .holding new
        | none => .read text
    | .holding _, ⟨.write _ _ _, _⟩ => .written
    | phase, _ => phase }

def Settled (P : Platform) (f : Frame) (reply : Bytes) : Prop :=
  match f.request, f.phase with
  | .get, .read text => match P.parseJson text with
      | some config => .ret reply = dataReply (P := P) "Overlay config retrieved" config
      | none => reply = unparsed
  | .get, _ => False
  | .change _, .written => reply = updated
  | .change _, .holding _ => False
  | .change _, _ => reply ≠ updated

section Safe

variable {ino : ℕ}

theorem safe_withConfig {request : FrameRequest} {use : Json → Server P Bytes}
    (hparse : ∀ text, P.parseJson text = none → Settled P ⟨request, .read text⟩ unparsed)
    (huse : ∀ text members, P.parseJson text = some (.obj members) →
      (use (.obj members)).Safe (frameMonitor P ino) (Settled P) (fun _ => False)
        ⟨request, .read text⟩) :
    (withConfig overlayConfig "overlay_config" use).Safe (frameMonitor P ino) (Settled P)
      (fun _ => False) ⟨request, .start⟩ := by
  rw [withConfig_eq]
  refine ⟨rfl, fun e he => ?_⟩
  obtain rfl : e = some (.file ino) := he
  refine ⟨rfl, fun text htext => ?_⟩
  obtain ⟨b, rfl, hobj⟩ : ∃ b, text = some b ∧
    ∀ config, P.parseJson b = some config → ∃ members, config = .obj members := htext
  change Prog.Safe _ _ _ ((P.parseJson b).elim _ use) (Frame.mk request (.read b))
  cases hb : P.parseJson b with
  | none => exact hparse b hb
  | some config =>
    obtain ⟨members, rfl⟩ := hobj config hb
    exact huse b members hb

theorem safe_saveConfig {payload text new : Bytes} {config : Json} (hdump : config.dump = some new)
    (hedit : (FrameRequest.change payload).edit P text = some new) :
    (saveConfig config).Safe (frameMonitor P ino) (Settled P) (fun _ => False)
      ⟨.change payload, .read text⟩ := by
  rw [saveConfig_eq, hdump]
  refine ⟨⟨rfl, by rw [hedit]; rfl⟩, fun i hi => ?_⟩
  obtain rfl : i = some ino := hi
  have hnext : (frameMonitor P ino).next ⟨.change payload, .read text⟩ (.openWrite overlayConfig)
      (some ino) = ⟨.change payload, .holding new⟩ := by
    simp [frameMonitor, hedit]
  rw [hnext]
  exact ⟨⟨rfl, rfl, rfl⟩, fun _ _ => ⟨trivial, fun _ _ => rfl⟩⟩

theorem safe_handleChangeFrame (payload : Bytes) :
    (handleChangeFrame payload).Safe (frameMonitor P ino) (Settled P) (fun _ => False)
      ⟨.change payload, .start⟩ := by
  rw [handleChangeFrame_eq]
  split
  · exact errorReply_ne_updated _ _
  · rename_i hfail
    refine safe_withConfig (fun text _ => errorReply_ne_updated _ _) fun text members hparse => ?_
    have hutf := P.parseJson_utf8 _ _ hparse
    have hsound : (frameEdit payload (.obj members)).Sound := changeFrame_sound _ _ hutf
    have hobject : (frameEdit payload (.obj members)).OfObject := changeFrame_object _ _ _
    cases hf : frameEdit payload (.obj members) with
    | reject message => exact errorReply_ne_updated _ _
    | throw =>
      rw [hf] at hobject
      exact hobject
    | accept config =>
      rw [hf] at hsound
      obtain ⟨new, hnew⟩ := Option.isSome_iff_exists.mp ((Json.dump_isSome_iff config).mpr hsound)
      refine safe_saveConfig hnew ?_
      rw [FrameRequest.edit, if_neg hfail, hparse, Option.bind_some, hf]
      exact hnew

theorem safe_handleGetFrame :
    (handleGetFrame).Safe (frameMonitor P ino) (Settled P) (fun _ => False) ⟨.get, .start⟩ := by
  refine safe_withConfig (fun text hparse => ?_) fun text members hparse => ?_
  · simp [Settled, hparse]
  · have hutf := P.parseJson_utf8 _ _ hparse
    have hmessage : Utf8.valid (ascii "Overlay config retrieved") = true := by decide
    rcases dataReply_cases (P := P) hmessage (.obj members) with ⟨-, reply, -, -, heq⟩ | ⟨hn, -⟩
    · rw [heq]
      simp [Settled, hparse, heq]
    · exact absurd hutf hn

theorem safe_serve (request : FrameRequest) :
    request.serve.Safe (frameMonitor P ino) (Settled P) (fun _ => False) ⟨request, .start⟩ := by
  cases request with
  | change payload => exact safe_handleChangeFrame payload
  | get => exact safe_handleGetFrame

end Safe

structure OverlayFile (fs : FileSystem) (ino : ℕ) : Prop where
  lookup : fs.lookup overlayConfig = some (.file ino)
  short : fs.tooLong overlayConfig = false

theorem OverlayFile.setContent {fs : FileSystem} {ino : ℕ} (h : OverlayFile fs ino) (b : Bytes) :
    OverlayFile (fs.setContent ino b) ino :=
  ⟨(fs.lookup_setContent _ _ _).trans h.lookup, h.short⟩

inductive FrameStep (ino : ℕ) (request : FrameRequest) :
    FileSystem → FramePhase → Event (Res (P := P)) → FileSystem → FramePhase → Prop
  | openRead {fs : FileSystem} : FrameStep ino request fs .start
      ⟨.openRead overlayConfig, some (.file ino)⟩ fs .opened
  | read {fs : FileSystem} : FrameStep ino request fs .opened
      ⟨.readAll (.file ino), some (fs.content ino)⟩ fs (.read (fs.content ino))
  | truncate {fs : FileSystem} {text new : Bytes} (edit : request.edit P text = some new) :
      FrameStep ino request fs (.read text) ⟨.openWrite overlayConfig, some ino⟩
        (fs.setContent ino []) (.holding new)
  | write {fs : FileSystem} {new : Bytes} {n : ℕ} : FrameStep ino request fs (.holding new)
      ⟨.write ino 0 new, n⟩ (fs.writeAt ino 0 new) .written
  | close {fs : FileSystem} {i : ℕ} {ok : Bool} : FrameStep ino request fs .written
      ⟨.closeWrite i, ok⟩ fs .written

theorem frameStep_of_admits {ino : ℕ} {f : Frame} {o : Call P} {r : Res o} {w : World P}
    {k : Socket} {s : World P × Socket} (hfile : OverlayFile w.fs ino)
    (ha : (frameMonitor P ino).admits f o)
    (hE : World.Serves World.Faultless o (w, k) r s) :
    FrameStep ino f.request w.fs f.phase ⟨o, r⟩ s.1.fs ((frameMonitor P ino).next f o r).phase := by
  obtain ⟨ω, hω, hans⟩ := hE
  have hok : ω.failed = false := hω
  obtain ⟨request, phase⟩ := f
  -- the phase leaves one call, and nothing fails
  cases phase with
  | start =>
    cases o with
    | openRead path =>
      obtain rfl : path = overlayConfig := ha
      simp only [World.answer, hok, hfile.short, hfile.lookup] at hans
      cases hans
      exact .openRead
    | _ => exact ha.elim
  | opened =>
    cases o with
    | readAll e =>
      obtain rfl : e = .file ino := ha
      simp only [World.answer, hok] at hans
      cases hans
      exact .read
    | _ => exact ha.elim
  | read text =>
    cases o with
    | openWrite path =>
      obtain ⟨rfl, hedit⟩ := ha
      obtain ⟨new, hnew⟩ := Option.isSome_iff_exists.mp hedit
      simp only [World.answer, hok, FileSystem.openWrite_file hfile.lookup hfile.short] at hans
      cases hans
      have hphase : ((frameMonitor P ino).next ⟨request, .read text⟩ (.openWrite overlayConfig)
          (some ino)).phase = .holding new := by
        change (match request.edit P text with | some new => _ | none => _) = _
        rw [hnew]
      rw [hphase]
      exact .truncate hnew
    | _ => exact ha.elim
  | holding new =>
    cases o with
    | write ino' off b =>
      obtain ⟨rfl, rfl, rfl⟩ := ha
      simp only [World.answer, hok] at hans
      cases hans
      exact .write
    | _ => exact ha.elim
  | written =>
    cases o with
    | closeWrite i =>
      cases hans
      exact .close
    | _ => exact ha.elim

theorem FrameStep.file {ino : ℕ} {request : FrameRequest} {fs fs' : FileSystem}
    {phase phase' : FramePhase} {e : Event (Res (P := P))}
    (h : FrameStep ino request fs phase e fs' phase') (hfile : OverlayFile fs ino) :
    OverlayFile fs' ino := by
  cases h with
  | truncate => exact hfile.setContent _
  | write => exact hfile.setContent _
  | _ => exact hfile

section Serial

variable {ι : Type} (request : ι → FrameRequest)

def alone (request : FrameRequest) (w : World P) : World P :=
  (Server.run request.serve (w, ⟨[], []⟩)).2.2.1

/-- The world after the requests of `order`, each alone, one after another. -/
def oneByOne (w : World P) (order : List ι) : World P :=
  order.foldl (fun w i => alone (request i) w) w

/-- The text after these requests, all of which change it. -/
def serial (P : Platform) (text : Bytes) (order : List ι) : Option Bytes :=
  order.foldlM (fun text i => (request i).edit P text) text

theorem serial_append (P : Platform) (text : Bytes) (order order' : List ι) :
    serial request P text (order ++ order') =
      (serial request P text order).bind fun t => serial request P t order' :=
  List.foldlM_append

variable {request}

/-- A request that changes the text does so when it runs alone. -/
theorem alone_change {request : FrameRequest} {w : World P} {ino : ℕ} {new : Bytes}
    (hfile : OverlayFile w.fs ino) (hedit : request.edit P (w.fs.content ino) = some new) :
    (alone request w).fs = (w.fs.setContent ino []).writeAt ino 0 new := by
  cases request with
  | get => cases hedit
  | change payload =>
    obtain ⟨hfail, config, config', hparse, hf, hconfig⟩ := FrameRequest.edit_change hedit
    have hopen := FileSystem.openWrite_file hfile.lookup hfile.short
    have hserve : (FrameRequest.change payload).serve (P := P) =
        withConfig overlayConfig "overlay_config" fun config =>
          (frameEdit payload config).answer :=
      (handleChangeFrame_eq payload).trans (if_neg (by simp [hfail]))
    simp [alone, hserve, Server.run, withConfig_eq, Prog.run, World.answer, Outcome.failed,
      hfile.short, hfile.lookup, hparse, hf, FrameEdit.answer, saveConfig_eq, hopen, hconfig]

theorem oneByOne_text {w : World P} {ino : ℕ} {text : Bytes} {order : List ι}
    (hfile : OverlayFile w.fs ino)
    (h : serial request P (w.fs.content ino) order = some text) :
    OverlayFile (oneByOne request w order).fs ino ∧
      (oneByOne request w order).fs.content ino = text := by
  induction order generalizing w with
  | nil =>
    cases h
    exact ⟨hfile, rfl⟩
  | cons i order ih =>
    obtain ⟨new, hnew, hrest⟩ := Option.bind_eq_some_iff.mp h
    have hfs := alone_change hfile hnew
    have hcontent : (alone (request i) w).fs.content ino = new := by
      rw [hfs]
      simp [FileSystem.writeAt, FileSystem.splice]
    refine ih (w := alone (request i) w) ?_ (hcontent ▸ hrest)
    rw [hfs]
    exact (hfile.setContent _).setContent _

end Serial

section Order

variable {ι : Type}

/-- The threads that have made such a call, in the order of these calls. -/
def performers (kind : Event (Res (P := P)) → Bool) (trace : List (ι × Event (Res (P := P)))) :
    List ι :=
  (trace.filter fun x => kind x.2).map Prod.fst

def truncates : Event (Res (P := P)) → Bool
  | ⟨.openWrite _, _⟩ => true
  | _ => false

def writes : Event (Res (P := P)) → Bool
  | ⟨.write _ _ _, _⟩ => true
  | _ => false

/-- Some request has emptied the file and not yet written it. -/
def MidUpdate (trace : List (ι × Event (Res (P := P)))) : Prop :=
  ∃ i ∈ performers truncates trace, i ∉ performers writes trace

/-- The request has read the file while it was empty. -/
def ReadGap (trace : List (ι × Event (Res (P := P)))) (i : ι) : Prop :=
  ∃ a b e, trace = a ++ (i, ⟨.readAll e, some []⟩) :: b ∧ MidUpdate a

variable {trace : List (ι × Event (Res (P := P)))}

theorem performers_snoc (kind : Event (Res (P := P)) → Bool) (i : ι) (e : Event (Res (P := P))) :
    performers kind (trace ++ [(i, e)]) = performers kind trace ++ if kind e then [i] else [] := by
  cases h : kind e <;> simp [performers, h]

theorem ReadGap.snoc {i : ι} (h : ReadGap trace i) (x : ι × Event (Res (P := P))) :
    ReadGap (trace ++ [x]) i := by
  obtain ⟨a, b, e, rfl, ha⟩ := h
  exact ⟨a, b ++ [x], e, by simp, ha⟩

/-- The configurations that the requests can make of the first one. -/
inductive Made (request : ι → FrameRequest) (first : Json) : Json → Prop
  | first : Made request first first
  | edited {config config' : Json} {i : ι} {payload : Bytes} (made : Made request first config)
      (change : request i = .change payload) (edit : frameEdit payload config = .accept config') :
      Made request first config'

variable [DecidableEq ι]

def textRead (trace : List (ι × Event (Res (P := P)))) (i : ι) : Option Bytes :=
  (trace.filterMap fun x => match x with
    | (j, ⟨.readAll _, text⟩) => if j = i then text else none
    | _ => none).getLast?

theorem textRead_snoc_of_ne {i j : ι} (h : j ≠ i) (e : Event (Res (P := P))) :
    textRead (trace ++ [(j, e)]) i = textRead trace i := by
  obtain ⟨o, r⟩ := e
  cases o <;> simp [textRead, h]

/-- What the trace says of a request in phase `p`: whether it holds the emptied file,
whether it has written, and what it has read. -/
structure Tracked (request : ι → FrameRequest) (start : Bytes)
    (trace : List (ι × Event (Res (P := P)))) (holder : Option (ι × Bytes)) (i : ι)
    (p : FramePhase) : Prop where
  holding : ∀ new, p = .holding new ↔ holder = some (i, new)
  wrote : p = .written ↔ i ∈ performers writes trace
  read : ∀ b, p = .read b → textRead trace i = some b
  beginning : ∀ b, p = .read b →
    (∃ l members, l <+: performers writes trace ∧ serial request P start l = some b ∧
      P.parseJson b = some (.obj members)) ∨ (b = [] ∧ ReadGap trace i)

/-- The writes so far are a serial order, `text` is what they lead to, and the file
holds it unless `holder` has emptied the file to write its own text. -/
structure InOrder (request : ι → FrameRequest) (start : Bytes) (first : Json) (content : Bytes)
    (trace : List (ι × Event (Res (P := P)))) (phase : ι → FramePhase) (text : Bytes)
    (holder : Option (ι × Bytes)) : Prop where
  serial : serial request P start (performers writes trace) = some text
  config : ∃ members, P.parseJson text = some (.obj members) ∧ Made request first (.obj members)
  content : content = holder.elim text fun _ => []
  pending : ∀ i new, holder = some (i, new) →
    (request i).edit P text = some new ∧ i ∈ performers truncates trace
  nodup : (performers writes trace).Nodup
  tracked : ∀ i, Tracked request start trace holder i (phase i)

section Steps

variable {request : ι → FrameRequest} {start : Bytes} {first : Json} {content : Bytes}
  {phase : ι → FramePhase} {text : Bytes} {holder holder' : Option (ι × Bytes)} {i : ι}

theorem tracked_update {e : Event (Res (P := P))} {p : FramePhase}
    (h : ∀ j, Tracked request start trace holder j (phase j))
    (hi : Tracked request start (trace ++ [(i, e)]) holder' i p)
    (hholder : ∀ j new, j ≠ i → (holder' = some (j, new) ↔ holder = some (j, new))) (j : ι) :
    Tracked request start (trace ++ [(i, e)]) holder' j (Function.update phase i p j) := by
  by_cases hji : j = i
  · subst hji
    rwa [Function.update_self]
  · rw [Function.update_of_ne hji]
    refine ⟨fun new => ?_, ?_, fun b hb => ?_, fun b hb => ?_⟩
    · rw [hholder j new hji]
      exact (h j).holding new
    · rw [(h j).wrote, performers_snoc, List.mem_append]
      refine ⟨.inl, fun hmem => hmem.resolve_right fun hm => hji ?_⟩
      split at hm
      · exact List.mem_singleton.mp hm
      · cases hm
    · rw [textRead_snoc_of_ne (Ne.symm hji)]
      exact (h j).read b hb
    · rw [performers_snoc]
      rcases (h j).beginning b hb with ⟨l, members, hl, hs, hp⟩ | ⟨hb', hgap⟩
      · exact .inl ⟨l, members, hl.trans (List.prefix_append _ _), hs, hp⟩
      · exact .inr ⟨hb', hgap.snoc _⟩

theorem Tracked.idle {p : FramePhase} (hread : ∀ b, p ≠ .read b) (hhold : ∀ new, p ≠ .holding new)
    (hholder : ∀ new, holder ≠ some (i, new))
    (hwrote : p = .written ↔ i ∈ performers writes trace) :
    Tracked request start trace holder i p :=
  ⟨fun new => iff_of_false (hhold new) (hholder new), hwrote, fun b hb => absurd hb (hread b),
    fun b hb => absurd hb (hread b)⟩

theorem InOrder.quiet (h : InOrder request start first content trace phase text holder)
    {e : Event (Res (P := P))} {p : FramePhase} (ht : truncates e = false)
    (hw : writes e = false) (hread : ∀ b, p ≠ .read b) (hhold : ∀ new, phase i ≠ .holding new)
    (hhold' : ∀ new, p ≠ .holding new) (hwrote : p = .written ↔ phase i = .written) :
    InOrder request start first content (trace ++ [(i, e)]) (Function.update phase i p) text
      holder := by
  have hp : performers writes (trace ++ [(i, e)]) = performers writes trace := by
    simp [performers_snoc, hw]
  have ht' : performers truncates (trace ++ [(i, e)]) = performers truncates trace := by
    simp [performers_snoc, ht]
  refine ⟨hp ▸ h.serial, h.config, h.content, ht' ▸ h.pending, hp ▸ h.nodup,
    tracked_update h.tracked (.idle hread hhold' (fun new hh => ?_) ?_) fun _ _ _ => Iff.rfl⟩
  · exact hhold new (((h.tracked i).holding new).mpr hh)
  · rw [hp, hwrote]
    exact (h.tracked i).wrote

theorem InOrder.read (h : InOrder request start first content trace phase text holder)
    {e : Entry} (hi : phase i = .opened) :
    InOrder request start first content (trace ++ [(i, ⟨.readAll e, some content⟩)])
      (Function.update phase i (.read content)) text holder := by
  have hp : performers writes
      (trace ++ [(i, (⟨.readAll e, some content⟩ : Event (Res (P := P))))]) =
        performers writes trace := by
    simp [performers_snoc, writes]
  have ht : performers truncates
      (trace ++ [(i, (⟨.readAll e, some content⟩ : Event (Res (P := P))))]) =
      performers truncates trace := by
    simp [performers_snoc, truncates]
  have hold := h.tracked i
  rw [hi] at hold
  refine ⟨hp ▸ h.serial, h.config, h.content, ht ▸ h.pending, hp ▸ h.nodup,
    tracked_update h.tracked ⟨fun new => ?_, ?_, fun b hb => ?_, fun b hb => ?_⟩
      fun _ _ _ => Iff.rfl⟩
  · rw [← hold.holding new]
    exact iff_of_false nofun nofun
  · rw [hp, ← hold.wrote]
    exact iff_of_false nofun nofun
  · cases hb
    simp [textRead]
  · cases hb
    rw [hp]
    -- a holder has emptied the file and not yet written its text
    cases hh : holder with
    | none =>
      obtain ⟨members, hm, -⟩ := h.config
      have hc : content = text := by
        rw [h.content, hh]
        rfl
      exact .inl ⟨_, members, List.prefix_rfl, hc ▸ h.serial, hc ▸ hm⟩
    | some x =>
      obtain ⟨j, new⟩ := x
      have hc : content = [] := by
        rw [h.content, hh]
        rfl
      refine .inr ⟨hc, trace, [], e, by rw [hc], j, (h.pending _ _ hh).2, fun hmem => ?_⟩
      have hheld := ((h.tracked j).holding new).mpr hh
      rw [(h.tracked j).wrote.mpr hmem] at hheld
      cases hheld

/-- A request that empties the file while it holds what the request has read. -/
theorem InOrder.truncate (h : InOrder request start first content trace phase text holder)
    (hempty : P.parseJson [] = none) {path : Bytes} {ino : Option ℕ} {b new : Bytes}
    (hi : phase i = .read b) (hb : b = content) (hedit : (request i).edit P b = some new) :
    InOrder request start first [] (trace ++ [(i, ⟨.openWrite path, ino⟩)])
      (Function.update phase i (.holding new)) text (some (i, new)) := by
  have hp : performers writes (trace ++ [(i, (⟨.openWrite path, ino⟩ : Event (Res (P := P))))]) =
      performers writes trace := by
    simp [performers_snoc, writes]
  -- the empty file has no configuration, so nobody makes a new one of it
  have hne : b ≠ [] := by
    rintro rfl
    have hnone : (request i).edit P [] = none := by
      cases request i <;> simp [FrameRequest.edit, hempty]
    rw [hnone] at hedit
    cases hedit
  obtain rfl : holder = none := by
    cases hh : holder with
    | none => rfl
    | some x =>
      refine absurd ?_ hne
      rw [hb, h.content, hh]
      rfl
  have hbt : b = text := hb.trans h.content
  have hold := h.tracked i
  rw [hi] at hold
  refine ⟨hp ▸ h.serial, h.config, rfl, fun j new' hj => ?_, hp ▸ h.nodup,
    tracked_update h.tracked ⟨fun new' => ?_, ?_, nofun, nofun⟩ fun j new' hji => ?_⟩
  · cases hj
    exact ⟨hbt ▸ hedit, by simp [performers_snoc, truncates]⟩
  · constructor
    · rintro ⟨⟩
      rfl
    · rintro ⟨⟩
      rfl
  · rw [hp, ← hold.wrote]
    exact iff_of_false nofun nofun
  · refine iff_of_false (fun hj => hji ?_) nofun
    cases hj
    rfl

/-- The request that has emptied the file writes its text. -/
theorem InOrder.write (h : InOrder request start first content trace phase text holder)
    (hback : ∀ config b, Made request first config → config.dump = some b →
      P.parseJson b = some config)
    {ino off n : ℕ} {new : Bytes} (hi : phase i = .holding new) :
    InOrder request start first new (trace ++ [(i, ⟨.write ino off new, n⟩)])
      (Function.update phase i .written) new none := by
  obtain rfl := ((h.tracked i).holding new).mp hi
  obtain ⟨hedit, -⟩ := h.pending i new rfl
  have hp : performers writes (trace ++ [(i, (⟨.write ino off new, n⟩ : Event (Res (P := P))))]) =
      performers writes trace ++ [i] := by
    simp [performers_snoc, writes]
  have hfresh : i ∉ performers writes trace := by
    rw [← (h.tracked i).wrote, hi]
    nofun
  refine ⟨?_, ?_, rfl, nofun, ?_, tracked_update h.tracked
    (.idle nofun nofun nofun ?_) fun j new' hji => ?_⟩
  · rw [hp, serial_append, h.serial]
    simp [CctvServer.serial, hedit]
  · -- the new text is that of an object that the requests can make
    obtain ⟨members, hparse, hmade⟩ := h.config
    cases hreq : request i with
    | get => simp [hreq, FrameRequest.edit] at hedit
    | change payload =>
      rw [hreq] at hedit
      obtain ⟨-, config, config', hconfig, hf, hdump⟩ := FrameRequest.edit_change hedit
      rw [hparse, Option.some.injEq] at hconfig
      subst hconfig
      have hobject : (frameEdit payload (.obj members)).OfObject := changeFrame_object _ _ _
      rw [hf] at hobject
      obtain ⟨members', rfl⟩ := hobject
      have hmade' := hmade.edited hreq hf
      exact ⟨members', hback _ _ hmade' hdump, hmade'⟩
  · rw [hp]
    exact List.nodup_append_comm.mpr (List.nodup_cons.mpr ⟨hfresh, h.nodup⟩)
  · simp [hp]
  · refine iff_of_false nofun fun hj => hji ?_
    cases hj
    rfl

theorem InOrder.step {fs fs' : FileSystem} {ino : ℕ} {e : Event (Res (P := P))} {p : FramePhase}
    (h : InOrder request start first (fs.content ino) trace phase text holder)
    (hempty : P.parseJson [] = none)
    (hback : ∀ config b, Made request first config → config.dump = some b →
      P.parseJson b = some config)
    (hstep : FrameStep ino (request i) fs (phase i) e fs' p)
    (hok : truncates e = true → textRead trace i = some (fs.content ino)) :
    ∃ text holder, InOrder request start first (fs'.content ino) (trace ++ [(i, e)])
      (Function.update phase i p) text holder := by
  generalize hi : phase i = p₀ at hstep
  cases hstep with
  | openRead =>
    exact ⟨text, holder, h.quiet rfl rfl (by simp) (by simp [hi]) (by simp) (by simp [hi])⟩
  | read => exact ⟨text, holder, h.read hi⟩
  | @truncate b new hedit =>
    have hb := (h.tracked i).read _ hi
    rw [hok rfl, Option.some.injEq] at hb
    refine ⟨text, some (i, new), ?_⟩
    rw [FileSystem.setContent_content, Function.update_self]
    exact h.truncate hempty hi hb.symm hedit
  | @write new n =>
    have hnew : (fs.writeAt ino 0 new).content ino = new := by
      obtain rfl := ((h.tracked i).holding new).mp hi
      have hc : fs.content ino = [] := h.content
      simp [FileSystem.writeAt, FileSystem.splice, hc]
    refine ⟨new, none, ?_⟩
    rw [hnew]
    exact h.write hback hi
  | close =>
    exact ⟨text, holder, h.quiet rfl rfl (by simp) (by simp [hi]) (by simp) (by simp [hi])⟩

end Steps

end Order

theorem FrameStep.expects {ino : ℕ} {request : FrameRequest} {fs fs' : FileSystem}
    {phase phase' : FramePhase} {f : Frame} {o : Call P} {r : Res o}
    (h : FrameStep ino request fs phase ⟨o, r⟩ fs' phase')
    (hobject : ∀ config, P.parseJson (fs.content ino) = some config →
      ∃ members, config = .obj members) : (frameMonitor P ino).expects f o r := by
  cases h with
  | read => exact ⟨_, rfl, hobject⟩
  | openRead => rfl
  | truncate => rfl
  | write => trivial
  | close => trivial

def overlayText (fs : FileSystem) : Option Bytes :=
  match fs.lookup overlayConfig with
  | some (.file ino) => some (fs.content ino)
  | _ => none

theorem OverlayFile.text {fs : FileSystem} {ino : ℕ} (h : OverlayFile fs ino) :
    overlayText fs = some (fs.content ino) := by
  rw [overlayText, h.lookup]

section Clients

variable {ι : Type} [DecidableEq ι]

/-- The changes have been made in this order, and every other request saw what a
beginning of it leads to, or met a gap. -/
structure Serialised (request : ι → FrameRequest) (w : World P) (c : Clients P ι Bytes)
    (order : List ι) : Prop where
  nodup : order.Nodup
  successful : ∀ i reply, c.prog i = .ret reply →
    (i ∈ order ↔ (∃ payload, request i = .change payload) ∧ reply = updated)
  final : (∀ i, ∃ reply, c.prog i = .ret reply) →
    overlayText c.shared.fs = overlayText (oneByOne request w order).fs
  retrieved : ∀ i reply, request i = .get → c.prog i = .ret reply →
    (∃ l config, l <+: order ∧
      (overlayText (oneByOne request w l).fs).bind P.parseJson = some config ∧
      .ret reply = dataReply (P := P) "Overlay config retrieved" config) ∨
    (reply = unparsed ∧ ReadGap c.trace i)
  alive : ∀ i, c.prog i ≠ .throw

/-- A request empties the file only while it holds what the request has read. -/
def unchanged (c : Clients P ι Bytes) (i : ι) : Event (Res (P := P)) → Bool
  | ⟨.openWrite _, _⟩ => textRead c.trace i = overlayText c.shared.fs
  | _ => true

/-- What a trace in order says once the requests are answered. -/
theorem InOrder.serialised {request : ι → FrameRequest} {w : World P} {c : Clients P ι Bytes}
    {ino : ℕ} {first : Json} {g : ι → Frame} {text : Bytes} {holder : Option (ι × Bytes)}
    (hempty : P.parseJson [] = none) (hw : OverlayFile w.fs ino) (hc : OverlayFile c.shared.fs ino)
    (hg : ∀ i, (g i).request = request i)
    (hsafe : ∀ i, (c.prog i).Safe (frameMonitor P ino) (Settled P) (fun _ => False) (g i))
    (h : InOrder request (w.fs.content ino) first (c.shared.fs.content ino) c.trace
      (fun i => (g i).phase) text holder) :
    Serialised request w c (performers writes c.trace) := by
  -- a request that is answered has reached the end of its phases
  have hsettled : ∀ i reply, c.prog i = .ret reply → Settled P ⟨request i, (g i).phase⟩ reply := by
    intro i reply hi
    have hs := hsafe i
    rw [hi, Prog.safe_ret] at hs
    rw [← hg i]
    exact hs
  refine ⟨h.nodup, fun i reply hi => ?_, fun hall => ?_, fun i reply hreq hi => ?_, fun i hi => ?_⟩
  · have hs := hsettled i reply hi
    rw [← (h.tracked i).wrote]
    cases hreq : request i with
    | get =>
      rw [hreq] at hs
      cases hp : (g i).phase <;> rw [hp] at hs <;> simp_all [Settled]
    | change payload =>
      rw [hreq] at hs
      cases hp : (g i).phase <;> rw [hp] at hs <;> simp_all [Settled]
  · obtain ⟨hfile, htext⟩ := oneByOne_text hw h.serial
    rw [hc.text, hfile.text, htext, h.content]
    cases hh : holder with
    | none => rfl
    | some x =>
      obtain ⟨j, new⟩ := x
      -- a request that still holds the file has no reply
      obtain ⟨reply, hj⟩ := hall j
      have hs := hsettled j reply hj
      have hphase := ((h.tracked j).holding new).mpr hh
      rw [hphase] at hs
      cases hreq : request j <;> rw [hreq] at hs <;> exact hs.elim
  · have hs := hsettled i reply hi
    rw [hreq] at hs
    cases hp : (g i).phase with
    | read b =>
      rw [hp] at hs
      rcases (h.tracked i).beginning b hp with ⟨l, members, hl, hserial, hparse⟩ | ⟨rfl, hgap⟩
      · obtain ⟨hfile, htext⟩ := oneByOne_text hw hserial
        refine .inl ⟨l, .obj members, hl, ?_, ?_⟩
        · rw [hfile.text, htext]
          exact hparse
        · simpa [Settled, hparse] using hs
      · refine .inr ⟨?_, hgap⟩
        simpa [Settled, hempty] using hs
    | _ =>
      rw [hp] at hs
      exact hs.elim
  · have hs := hsafe i
    rw [hi] at hs
    exact hs

/-- As long as every request that empties the file has read what it holds, the requests
serialise. -/
theorem overlay_requests_serialise {c₀ c : Clients P ι Bytes} {request : ι → FrameRequest}
    {ino : ℕ} {members : List (Bytes × Json)}
    (hprog : ∀ i, c₀.prog i = (request i).serve) (htrace : c₀.trace = [])
    (hfile : OverlayFile c₀.shared.fs ino)
    (hfirst : P.parseJson (c₀.shared.fs.content ino) = some (.obj members))
    (hempty : P.parseJson [] = none)
    (hback : ∀ config b, Made request (.obj members) config → config.dump = some b →
      P.parseJson b = some config)
    (h : Config.Reach (World.Serves World.Faultless) (fun c i e => unchanged c i e = true) c₀ c) :
    ∃ order, Serialised request c₀.shared c order := by
  obtain ⟨hsafe, hg, hc, text, holder, horder⟩ := h.monitored (frameMonitor P ino)
    (Q := fun _ => Settled P) (T := fun _ _ => False) (fun i => ⟨request i, .start⟩)
    (I := fun c g => (∀ i, (g i).request = request i) ∧ OverlayFile c.shared.fs ino ∧
      ∃ text holder, InOrder request (c₀.shared.fs.content ino) (.obj members)
        (c.shared.fs.content ino) c.trace (fun i => (g i).phase) text holder) htrace
    (fun i => by
      rw [hprog]
      exact safe_serve _)
    ⟨fun _ => rfl, hfile, c₀.shared.fs.content ino, none, by
      rw [htrace]
      exact ⟨rfl, ⟨members, hfirst, .first⟩, rfl, nofun, .nil, fun i =>
        .idle nofun nofun nofun (iff_of_false nofun nofun)⟩⟩
    (fun c g i o r s p hI ha hE hok _ => by
      obtain ⟨hg, hc, text, holder, horder⟩ := hI
      have hstep := frameStep_of_admits hc ha hE
      rw [hg i] at hstep
      refine ⟨hstep.expects fun config hconfig => ?_, ?_, hstep.file hc, ?_⟩
      · -- between requests the file has an object, in a gap it has nothing
        cases hh : holder with
        | none =>
          obtain ⟨members', hparse, -⟩ := horder.config
          rw [horder.content, hh, Option.elim_none, hparse] at hconfig
          cases hconfig
          exact ⟨members', rfl⟩
        | some x =>
          rw [horder.content, hh, Option.elim_some, hempty] at hconfig
          cases hconfig
      · exact (Function.forall_update_iff g fun j f => f.request = request j).mpr
          ⟨hg i, fun j _ => hg j⟩
      · have hphase :
            (fun j => (Function.update g i ((frameMonitor P ino).next (g i) o r) j).phase) =
              Function.update (fun j => (g j).phase) i
                ((frameMonitor P ino).next (g i) o r).phase :=
          Function.comp_update Frame.phase g i _
        rw [hphase]
        refine horder.step hempty hback hstep fun ht => ?_
        rw [← hc.text]
        cases o with
        | openWrite path => simpa [unchanged] using hok
        | _ => cases ht)
  exact ⟨_, horder.serialised hempty hfile hc hg hsafe⟩

end Clients

def shmFs : FileSystem :=
  (((Reference.emptyFs.mkdir (ascii "/dev")).bind (·.mkdir (ascii "/dev/shm"))).bind fun fs =>
    (fs.openWrite overlayConfig).map fun x => x.2.writeAt x.1 0 (ascii "\x7b\x7d")).getD
      Reference.emptyFs

def frameRequest : Fin 3 → FrameRequest
  | 0 => .change (ascii "0 1")
  | 1 => .change (ascii "1 1")
  | 2 => .get

def frameClients : Clients .reference (Fin 3) Bytes where
  shared := Reference.world shmFs
  loc _ := ⟨[], []⟩
  prog i := (frameRequest i).serve
  trace := []

/-- Both changes read the file before either empties it, and GET_FRAME reads it in between. -/
def clash : List (Fin 3 × Outcome) :=
  [0, 0, 1, 1, 0, 2, 2, 0, 0, 1, 1, 1].map fun i => (i, .ok)

/-- The second change begins when the first has written. -/
def turns : List (Fin 3 × Outcome) :=
  [0, 0, 0, 2, 2, 0, 1, 1, 0, 1, 1, 1].map fun i => (i, .ok)

theorem clash_fits : frameClients.Fits World.answer (fun _ _ _ => true) clash = true := by decide

theorem turns_fits : frameClients.Fits World.answer unchanged turns = true := by decide

theorem clash_text : overlayText (frameClients.follow World.answer clash).shared.fs =
    (Json.object [("show_timestamp", .bool true)]).dump := by decide

theorem both_changes (order : List (Fin 3)) (h : order.Perm [0, 1]) :
    overlayText (oneByOne frameRequest frameClients.shared order).fs =
      (Json.object [("show_bbox", .bool true), ("show_timestamp", .bool true)]).dump := by
  have hmem : order ∈ List.permutations' [0, 1] := List.mem_permutations'.mpr h
  clear h
  revert order
  decide

/-- Both changes are answered with success and one of them is gone; GET_FRAME finds no
configuration. -/
theorem overlapping_change_is_lost :
    ∃ c, Config.Reach (World.Serves World.Faultless) (fun _ _ _ => true = true) frameClients c ∧
      c.prog 0 = .ret updated ∧ c.prog 1 = .ret updated ∧ c.prog 2 = .ret unparsed ∧
      ∀ order : List (Fin 3), order.Perm [0, 1] →
        overlayText c.shared.fs ≠
          overlayText (oneByOne frameRequest frameClients.shared order).fs := by
  refine ⟨_, Clients.follow_reach clash _ clash_fits (fun _ _ h => h) (by decide), rfl, rfl, rfl,
    fun order horder => ?_⟩
  rw [clash_text, both_changes order horder]
  decide

def frameConfigs : List Json :=
  [.object [], .object [("show_bbox", .bool true)], .object [("show_timestamp", .bool true)],
    .object [("show_bbox", .bool true), ("show_timestamp", .bool true)]]

theorem frameConfigs_closed : ∀ payload ∈ [ascii "0 1", ascii "1 1"], ∀ config ∈ frameConfigs,
    ∃ config' ∈ frameConfigs, frameEdit payload config = .accept config' := by
  have hbbox : ∀ config ∈ frameConfigs, ∃ config' ∈ frameConfigs,
      frameEdit (ascii "0 1") config = .accept config' := by
    simp only [frameConfigs, List.forall_mem_cons, List.exists_mem_cons_iff, List.not_mem_nil,
      false_imp_iff, implies_true, and_true]
    exact ⟨.inr (.inl rfl), .inr (.inl rfl), .inr (.inr (.inr (.inl rfl))),
      .inr (.inr (.inr (.inl rfl)))⟩
  have htimestamp : ∀ config ∈ frameConfigs, ∃ config' ∈ frameConfigs,
      frameEdit (ascii "1 1") config = .accept config' := by
    simp only [frameConfigs, List.forall_mem_cons, List.exists_mem_cons_iff, List.not_mem_nil,
      false_imp_iff, implies_true, and_true]
    exact ⟨.inr (.inr (.inl rfl)), .inr (.inr (.inr (.inl rfl))), .inr (.inr (.inl rfl)),
      .inr (.inr (.inr (.inl rfl)))⟩
  simp only [List.forall_mem_cons, List.not_mem_nil, false_imp_iff, implies_true, and_true]
  exact ⟨hbbox, htimestamp⟩

theorem made_mem {config : Json} (h : Made frameRequest (.obj []) config) :
    config ∈ frameConfigs := by
  induction h with
  | first => exact List.mem_cons_self
  | @edited config config' i payload _ hreq hedit ih =>
    have hpayload : payload ∈ [ascii "0 1", ascii "1 1"] := by
      match i with
      | 0 =>
        cases hreq
        simp
      | 1 =>
        cases hreq
        simp
      | 2 => cases hreq
    obtain ⟨config'', hmem, heq⟩ := frameConfigs_closed payload hpayload config ih
    rw [heq] at hedit
    cases hedit
    exact hmem

theorem frameConfigs_parse : ∀ config ∈ frameConfigs, ∀ b, config.dump = some b →
    Platform.reference.parseJson b = some config := by
  simp only [frameConfigs, List.forall_mem_cons, List.not_mem_nil, false_imp_iff, implies_true,
    and_true]
  refine ⟨?_, ?_, ?_, ?_⟩ <;> rintro _ ⟨⟩ <;> rfl

theorem changes_in_turn :
    ∃ c order, Config.Reach (World.Serves World.Faultless) (fun c i e => unchanged c i e = true)
        frameClients c ∧ Serialised frameRequest frameClients.shared c order ∧
      c.prog 0 = .ret updated ∧ c.prog 1 = .ret updated := by
  have hreach : Config.Reach (World.Serves World.Faultless) (fun c i e => unchanged c i e = true)
      frameClients _ := Clients.follow_reach turns _ turns_fits (fun _ _ h => h) (by decide)
  have hfile : OverlayFile frameClients.shared.fs 2 := ⟨by decide, by decide⟩
  have hparse : Platform.reference.parseJson (frameClients.shared.fs.content 2) =
      some (.obj []) := by
    rfl
  obtain ⟨order, h⟩ := overlay_requests_serialise (fun _ => rfl) rfl hfile hparse rfl
    (fun config b hmade => frameConfigs_parse config (made_mem hmade) b) hreach
  exact ⟨_, order, hreach, h, rfl, rfl⟩

end CctvServer
