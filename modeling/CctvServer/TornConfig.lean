import CctvServer.ConfigText
import CctvServer.FrameFaults

namespace CctvServer

open CommandHandler JsonParser

section Broken

variable {P : Platform}

inductive BrokenPhase
  | start
  | opened
  | refused

/-- The calls of a request that finds no configuration in file `ino`: it only reads. -/
def brokenMonitor (P : Platform) (ino : ℕ) : Monitor (Res (P := P)) BrokenPhase where
  admits g o := match g, o with
    | .start, .openRead path => path = overlayConfig
    | .opened, .readAll e => e = .file ino
    | _, _ => False
  expects _ o r := match (⟨o, r⟩ : Event (Res (P := P))) with
    | ⟨.openRead _, e⟩ => e = none ∨ e = some (.file ino)
    | ⟨.readAll _, text⟩ => text.bind P.parseJson = none
    | _ => True
  next g o _ := match g, o with
    | .start, .openRead _ => .opened
    | _, _ => .refused

def Refused (reply : Bytes) : Prop := ∃ code message, reply = errorReply code message

theorem safe_withConfig_broken {ino : ℕ} {use : Json → Server P Bytes} :
    (withConfig overlayConfig "overlay_config" use).Safe (brokenMonitor P ino)
      (fun _ => Refused) (fun _ => False) .start := by
  rw [withConfig_eq]
  refine ⟨rfl, fun e he => ?_⟩
  rcases he with rfl | rfl
  · exact ⟨_, _, rfl⟩
  · refine ⟨rfl, fun text htext => ?_⟩
    have hnone : Option.bind text P.parseJson = none := htext
    change Prog.Safe _ _ _ (Option.elim (Option.bind text P.parseJson) _ use) _
    rw [hnone]
    exact ⟨_, _, rfl⟩

theorem safe_serve_broken {ino : ℕ} (request : FrameRequest) :
    request.serve.Safe (brokenMonitor P ino) (fun _ => Refused) (fun _ => False) .start := by
  cases request with
  | get => exact safe_withConfig_broken
  | change payload =>
    rw [FrameRequest.serve, handleChangeFrame_eq]
    split
    · exact ⟨_, _, rfl⟩
    · exact safe_withConfig_broken

theorem broken_step {ino : ℕ} {g : BrokenPhase} {o : Call P} {r : Res o} {w : World P} {k : Socket}
    {s : World P × Socket} (hfile : OverlayFile w.fs ino)
    (hbroken : P.parseJson (w.fs.content ino) = none) (ha : (brokenMonitor P ino).admits g o)
    (hE : World.Serves (fun _ _ => True) o (w, k) r s) :
    (brokenMonitor P ino).expects g o r ∧ s.1.fs = w.fs := by
  obtain ⟨ω, -, hans⟩ := hE
  cases g with
  | start =>
    cases o with
    | openRead path =>
      obtain rfl : path = overlayConfig := ha
      simp only [World.answer, hfile.short, hfile.lookup] at hans
      split at hans
      · cases hans
        exact ⟨.inl rfl, rfl⟩
      · cases hans
        exact ⟨.inr rfl, rfl⟩
    | _ => exact ha.elim
  | opened =>
    cases o with
    | readAll e =>
      obtain rfl : e = .file ino := ha
      simp only [World.answer] at hans
      split at hans
      · cases hans
        exact ⟨rfl, rfl⟩
      · cases hans
        exact ⟨hbroken, rfl⟩
    | _ => exact ha.elim
  | refused => cases o <;> exact ha.elim

variable {ι : Type} [DecidableEq ι] {request : ι → FrameRequest}

/-- A file without a configuration stays as it is, and all requests are refused, whatever
else fails. -/
theorem broken_overlay_stays {c₀ c : Clients P ι Bytes} {ino : ℕ}
    {ok : Clients P ι Bytes → ι → Event (Res (P := P)) → Prop}
    (hprog : ∀ i, c₀.prog i = (request i).serve) (htrace : c₀.trace = [])
    (hfile : OverlayFile c₀.shared.fs ino) (hbroken : P.parseJson (c₀.shared.fs.content ino) = none)
    (h : Config.Reach (World.Serves fun _ _ => True) ok c₀ c) :
    c.shared.fs = c₀.shared.fs ∧ (∀ i reply, c.prog i = .ret reply → Refused reply) ∧
      ∀ i, c.prog i ≠ .throw := by
  obtain ⟨hsafe, hfs⟩ := h.monitored (brokenMonitor P ino) (Q := fun _ _ => Refused)
    (T := fun _ _ => False) (fun _ => .start) (I := fun c _ => c.shared.fs = c₀.shared.fs) htrace
    (fun i => by
      rw [hprog]
      exact safe_serve_broken _) rfl
    (fun c g i o r s p hI ha hE _ _ => by
      obtain ⟨hexp, hfs⟩ := broken_step (hI ▸ hfile) (hI ▸ hbroken) ha hE
      exact ⟨hexp, hfs.trans hI⟩)
  refine ⟨hfs, fun i reply hi => ?_, fun i hi => ?_⟩
  · have hs := hsafe i
    rw [hi, Prog.safe_ret] at hs
    exact hs
  · have hs := hsafe i
    rw [hi] at hs
    exact hs

end Broken

section Torn

variable {P : Platform} {F : Floats} {ι : Type} [DecidableEq ι] {request : ι → FrameRequest}
  {payload : Bytes} {o : FrameOutcomes} {w : World (P.parsing F)} {ino : ℕ}

/-- A change whose write is cut short has read a configuration and leaves none. -/
theorem torn_text (hfile : OverlayFile w.fs ino)
    (hcut : ¬WritesAll (P.parsing F) payload (w.fs.content ino) o) :
    (changedFrame payload o w).1 = some updated ∧ OverlayFile (changedFrame payload o w).2.fs ino ∧
      (P.parsing F).parseJson (w.fs.content ino) ≠ none ∧
      (P.parsing F).parseJson ((changedFrame payload o w).2.fs.content ino) = none := by
  simp only [WritesAll, not_forall, Nat.not_le] at hcut
  obtain ⟨new, hedit, hread, hall, hopen, hfail, hshort⟩ := hcut
  rw [changedFrame_written hfile hedit hread hall hopen]
  obtain ⟨-, config, config', hparse, hf, hdump⟩ := FrameRequest.edit_change hedit
  refine ⟨rfl, (hfile.setContent _).setContent _, by simp [hparse], ?_⟩
  have hcanonical := (edit_of_frameEdit hf).canonical (Platform.canonical_of_parsing hparse)
  obtain ⟨members, rfl⟩ := (edit_of_frameEdit hf).object
  have htext : (((w.fs.setContent ino []).writeAt ino 0
      (if o.write.failed then new.take o.write.number else new)).content ino) =
        new.take o.write.number := by
    simp [FileSystem.writeAt, FileSystem.splice, hfail]
  rw [htext]
  refine Platform.parsing_torn hcanonical hdump (List.take_prefix _ _) fun heq => ?_
  have hlen := congrArg List.length heq
  rw [List.length_take] at hlen
  omega

/-- A change whose write is cut short is answered with success, and from then on every
request for the overlay configuration is refused, whatever the requests and their order. -/
theorem torn_change_is_final {c₀ c : Clients (P.parsing F) ι Bytes}
    {ok : Clients (P.parsing F) ι Bytes → ι → Event (Res (P := P.parsing F)) → Prop}
    (hfile : OverlayFile w.fs ino)
    (hcut : ¬WritesAll (P.parsing F) payload (w.fs.content ino) o)
    (hshared : c₀.shared = (changedFrame payload o w).2)
    (hprog : ∀ i, c₀.prog i = (request i).serve) (htrace : c₀.trace = [])
    (h : Config.Reach (World.Serves fun _ _ => True) ok c₀ c) :
    (changedFrame payload o w).1 = some updated ∧ overlayText c.shared.fs ≠ overlayText w.fs ∧
      c.shared.fs = c₀.shared.fs ∧ ∀ i reply, c.prog i = .ret reply → Refused reply := by
  obtain ⟨hreply, hfile', hread, hbroken⟩ := torn_text hfile hcut
  rw [← hshared] at hfile' hbroken
  obtain ⟨hfs, hrefused, -⟩ := broken_overlay_stays hprog htrace hfile' hbroken h
  refine ⟨hreply, fun htext => ?_, hfs, hrefused⟩
  rw [hfs, hfile'.text, hfile.text, Option.some.injEq] at htext
  exact hread (htext ▸ hbroken)

end Torn

def afterFullDisk : Clients (Platform.reference.parsing Reference.floats) (Fin 1) Bytes where
  shared := (changedFrame (ascii "0 1") fullDisk parsingClients.shared).2
  loc _ := ⟨[], []⟩
  prog _ := handleGetFrame
  trace := []

def getFrameSteps : List (Fin 1 × Outcome) := [(0, .ok), (0, .ok)]

theorem getFrameSteps_fit :
    afterFullDisk.Fits World.answer (fun _ _ _ => true) getFrameSteps = true := by decide +kernel

theorem full_disk_is_final : ∃ c, Config.Reach (World.Serves fun _ _ => True)
      (fun _ _ _ => true = true) afterFullDisk c ∧ c.prog 0 = .ret unparsed ∧
    (changedFrame (ascii "0 1") fullDisk parsingClients.shared).1 = some updated ∧
    overlayText c.shared.fs ≠ overlayText parsingClients.shared.fs ∧
    c.shared.fs = afterFullDisk.shared.fs ∧ ∀ i reply, c.prog i = .ret reply → Refused reply := by
  have hreach : Config.Reach (World.Serves fun _ _ => True) (fun _ _ _ => true = true)
      afterFullDisk _ := Config.follow_reach getFrameSteps _ getFrameSteps_fit fun _ _ _ => trivial
  have hfile : OverlayFile parsingClients.shared.fs 2 := ⟨by decide, by decide⟩
  have hcut : ¬WritesAll (Platform.reference.parsing Reference.floats) (ascii "0 1")
      (parsingClients.shared.fs.content 2) fullDisk := by
    intro hall
    have hedit : (FrameRequest.change (ascii "0 1")).edit
        (Platform.reference.parsing Reference.floats) (parsingClients.shared.fs.content 2) =
          some (ascii "\x7b\"show_bbox\":true\x7d") := by rfl
    exact absurd (hall _ hedit rfl rfl rfl rfl) (by decide)
  have hprog : ∀ i, afterFullDisk.prog i = FrameRequest.get.serve := fun _ => rfl
  exact ⟨_, hreach, rfl, torn_change_is_final hfile hcut rfl hprog rfl hreach⟩

end CctvServer
