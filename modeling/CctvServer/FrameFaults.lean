import CctvServer.Overlay

namespace CctvServer

open CommandHandler

variable {P : Platform}

/-- How the file operations of CHANGE_FRAME turn out. A write that fails leaves as many
bytes as it says, whether it fails at once or when the stream is flushed. -/
structure FrameOutcomes where
  openRead : Outcome
  readAll : Outcome
  openWrite : Outcome
  write : Outcome
  closeWrite : Outcome

def FrameOutcomes.inTurn (o : FrameOutcomes) : List Outcome :=
  [o.openRead, o.readAll, o.openWrite, o.write, o.closeWrite]

def changedFrame (payload : Bytes) (o : FrameOutcomes) (w : World P) : Option Bytes × World P :=
  let r := Prog.run World.answer .ok (handleChangeFrame payload) o.inTurn (w, ⟨[], []⟩)
  (r.2.1, r.2.2.1)

/-- Success means that the file holds the changed configuration, every other answer that
it is as before. -/
def TellsTruth (payload : Bytes) (w : World P) (r : Option Bytes × World P) : Prop :=
  ∃ reply, r.1 = some reply ∧
    (reply = updated → ∃ old new, overlayText w.fs = some old ∧
      (FrameRequest.change payload).edit P old = some new ∧ overlayText r.2.fs = some new) ∧
    (reply ≠ updated → overlayText r.2.fs = overlayText w.fs)

/-- An accepted change that gets as far as the write writes its whole text. -/
def WritesAll (P : Platform) (payload text : Bytes) (o : FrameOutcomes) : Prop :=
  ∀ new, (FrameRequest.change payload).edit P text = some new → o.openRead.failed = false →
    o.readAll.failed = false → o.openWrite.failed = false → o.write.failed = true →
    new.length ≤ o.write.number

section Faults

variable {payload : Bytes} {o : FrameOutcomes} {w : World P} {ino : ℕ}
  {members : List (Bytes × Json)}

theorem tellsTruth_of_error {code : ℕ} {message : String} :
    TellsTruth payload w (some (errorReply code message), w) :=
  ⟨_, rfl, fun h => absurd h (errorReply_ne_updated _ _), fun _ => rfl⟩

theorem changedFrame_read (hfail : ((IStream.ofBytes payload).int 0).2.fail = false) :
    changedFrame payload o w =
      ((Prog.run World.answer .ok (withConfig overlayConfig "overlay_config" fun config =>
        (frameEdit payload config).answer) o.inTurn (w, ⟨[], []⟩)).2.1,
      (Prog.run World.answer .ok (withConfig overlayConfig "overlay_config" fun config =>
        (frameEdit payload config).answer) o.inTurn (w, ⟨[], []⟩)).2.2.1) := by
  rw [changedFrame, handleChangeFrame_eq, if_neg (by simp [hfail])]

theorem changedFrame_error (hfile : OverlayFile w.fs ino)
    (hobj : P.parseJson (w.fs.content ino) = some (.obj members))
    (h : (FrameRequest.change payload).edit P (w.fs.content ino) = none ∨
      o.openRead.failed = true ∨ o.readAll.failed = true ∨ o.openWrite.failed = true) :
    ∃ code message, changedFrame payload o w = (some (errorReply code message), w) := by
  by_cases hfail : ((IStream.ofBytes payload).int 0).2.fail = true
  · refine ⟨400, "Invalid input format", ?_⟩
    rw [changedFrame, handleChangeFrame_eq, if_pos hfail]
    rfl
  have hfail' : ((IStream.ofBytes payload).int 0).2.fail = false := by simpa using hfail
  rw [changedFrame_read hfail', withConfig_eq]
  cases hread : o.openRead.failed with
  | true =>
    refine ⟨500, "Failed to open overlay_config", ?_⟩
    simp [Prog.run, FrameOutcomes.inTurn, World.answer, hread]
  | false =>
  cases hall : o.readAll.failed with
  | true =>
    refine ⟨500, "Failed to parse overlay_config", ?_⟩
    simp [Prog.run, FrameOutcomes.inTurn, World.answer, hread, hfile.short, hfile.lookup, hall]
  | false =>
  have hobject : (frameEdit payload (.obj members)).OfObject := changeFrame_object _ _ _
  have hsound : (frameEdit payload (.obj members)).Sound :=
    changeFrame_sound _ _ (P.parseJson_utf8 _ _ hobj)
  cases hedit : frameEdit payload (.obj members) with
  | reject message =>
    refine ⟨400, message, ?_⟩
    simp [Prog.run, FrameOutcomes.inTurn, World.answer, hread, hfile.short, hfile.lookup, hall,
      hobj, hedit, FrameEdit.answer]
  | throw =>
    rw [hedit] at hobject
    exact hobject.elim
  | accept config =>
    rw [hedit] at hsound
    obtain ⟨new, hnew⟩ := Option.isSome_iff_exists.mp ((Json.dump_isSome_iff config).mpr hsound)
    have hwrite : o.openWrite.failed = true := by
      have hsome : (FrameRequest.change payload).edit P (w.fs.content ino) = some new := by
        rw [FrameRequest.edit, if_neg hfail, hobj, Option.bind_some, hedit]
        exact hnew
      simpa [hsome, hread, hall] using h
    refine ⟨500, "Failed to write overlay_config", ?_⟩
    simp [Prog.run, FrameOutcomes.inTurn, World.answer, hread, hfile.short, hfile.lookup, hall,
      hobj, hedit, FrameEdit.answer, saveConfig_eq, hwrite]

/-- An accepted change whose file opens is answered with success, whatever is written. -/
theorem changedFrame_written {new : Bytes} (hfile : OverlayFile w.fs ino)
    (hedit : (FrameRequest.change payload).edit P (w.fs.content ino) = some new)
    (hread : o.openRead.failed = false) (hall : o.readAll.failed = false)
    (hwrite : o.openWrite.failed = false) :
    changedFrame payload o w = (some updated, { w with
      fs := (w.fs.setContent ino []).writeAt ino 0
        (if o.write.failed then new.take o.write.number else new) }) := by
  obtain ⟨hfail, config, config', hparse, hf, hconfig⟩ := FrameRequest.edit_change hedit
  have hopen := FileSystem.openWrite_file hfile.lookup hfile.short
  rw [changedFrame_read hfail, withConfig_eq]
  cases hw : o.write.failed <;>
    simp [Prog.run, FrameOutcomes.inTurn, World.answer, hread, hfile.short, hfile.lookup, hall,
      hparse, hf, FrameEdit.answer, saveConfig_eq, hwrite, hopen, hconfig, hw, updated]

/-- CHANGE_FRAME tells the truth and is atomic exactly if the write of an accepted change
does not fail before its last byte. -/
theorem change_frame_tells_truth_iff (hfile : OverlayFile w.fs ino)
    (hobj : P.parseJson (w.fs.content ino) = some (.obj members)) :
    TellsTruth payload w (changedFrame payload o w) ↔
      WritesAll P payload (w.fs.content ino) o := by
  by_cases herror : (FrameRequest.change payload).edit P (w.fs.content ino) = none ∨
      o.openRead.failed = true ∨ o.readAll.failed = true ∨ o.openWrite.failed = true
  · obtain ⟨code, message, hresult⟩ := changedFrame_error hfile hobj herror
    rw [hresult]
    refine iff_of_true tellsTruth_of_error fun new hedit hread hall hwrite => ?_
    simp [hedit, hread, hall, hwrite] at herror
  · simp only [not_or, Bool.not_eq_true] at herror
    obtain ⟨hedit, hread, hall, hwrite⟩ := herror
    obtain ⟨new, hnew⟩ := Option.ne_none_iff_exists'.mp hedit
    rw [changedFrame_written hfile hnew hread hall hwrite]
    set text := if o.write.failed then new.take o.write.number else new with htext
    have hfile' : OverlayFile ((w.fs.setContent ino []).writeAt ino 0 text) ino :=
      (hfile.setContent _).setContent _
    have hafter : overlayText ((w.fs.setContent ino []).writeAt ino 0 text) = some text := by
      rw [hfile'.text]
      simp [FileSystem.writeAt, FileSystem.splice]
    have hcomplete : text = new ↔ (o.write.failed = true → new.length ≤ o.write.number) := by
      cases hw : o.write.failed with
      | true => simp [htext, hw]
      | false => simp [htext, hw]
    constructor
    · rintro ⟨_, hreply, hsuccess, -⟩ new' hnew' - - - hw
      cases hreply
      obtain ⟨old, new'', hold, hnew'', hnow⟩ := hsuccess rfl
      rw [hfile.text, Option.some.injEq] at hold
      subst hold
      have hsame : text = new' := by
        rw [hafter, ← hnew'', hnew'] at hnow
        exact Option.some.inj hnow
      have hnews : new' = new := Option.some.inj (hnew'.symm.trans hnew)
      rw [hnews] at hsame ⊢
      exact hcomplete.mp hsame hw
    · intro hall'
      refine ⟨updated, rfl, fun _ => ⟨_, new, hfile.text, hnew, ?_⟩, fun h => absurd rfl h⟩
      rw [hafter, hcomplete.mpr (hall' new hnew hread hall hwrite)]

end Faults

def allWell : FrameOutcomes := ⟨.ok, .ok, .ok, .ok, .ok⟩

def fullDisk : FrameOutcomes := { allWell with write := .fail 4, closeWrite := .fail 0 }

/-- The answer is success, and the file holds four bytes of the new text. -/
theorem full_disk_is_not_reported :
    (changedFrame (ascii "0 1") fullDisk (Reference.world shmFs)).1 = some updated ∧
    overlayText (changedFrame (ascii "0 1") fullDisk (Reference.world shmFs)).2.fs =
      some ((ascii "\x7b\"show_bbox\":true\x7d").take 4) ∧
    ¬TellsTruth (ascii "0 1") (Reference.world shmFs)
      (changedFrame (ascii "0 1") fullDisk (Reference.world shmFs)) := by
  have hafter : overlayText (changedFrame (ascii "0 1") fullDisk (Reference.world shmFs)).2.fs =
      some ((ascii "\x7b\"show_bbox\":true\x7d").take 4) := by decide +kernel
  refine ⟨by decide +kernel, hafter, ?_⟩
  rintro ⟨reply, hreply, hsuccess, -⟩
  have hupdated : reply = updated := by
    have hsome : (changedFrame (ascii "0 1") fullDisk (Reference.world shmFs)).1 =
        some updated := by decide +kernel
    exact Option.some.inj (hreply.symm.trans hsome)
  obtain ⟨old, new, hold, hnew, hnow⟩ := hsuccess hupdated
  rw [hafter] at hnow
  have hedit : (overlayText shmFs).bind ((FrameRequest.change (ascii "0 1")).edit .reference) =
      some (ascii "\x7b\"show_bbox\":true\x7d") := by decide +kernel
  rw [show overlayText shmFs = some old from hold, Option.bind_some, hnew, ← hnow] at hedit
  exact absurd hedit (by decide)

theorem change_tells_truth : TellsTruth (ascii "0 1") (Reference.world shmFs)
    (changedFrame (ascii "0 1") allWell (Reference.world shmFs)) := by
  have hfile : OverlayFile (Reference.world shmFs).fs 2 := ⟨by decide, by decide⟩
  have hobj : Platform.reference.parseJson ((Reference.world shmFs).fs.content 2) =
      some (.obj []) := by rfl
  refine (change_frame_tells_truth_iff hfile hobj).mpr ?_
  intro _ _ _ _ _ hfailed
  cases hfailed

end CctvServer
