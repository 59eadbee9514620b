import CctvServer.Downloads

namespace CctvServer

open ImageHandler

variable {P : Platform}

/-- The bytes that the upload loop has received. -/
def arrived (tr : List (Event (Res (P := P)))) : Bytes :=
  tr.flatMap fun e => match e with
    | ⟨.sslRead _, some b⟩ => b.1
    | _ => []

/-- Less than asked was written to the file, or its closing has failed. -/
def writeFailed : Event (Res (P := P)) → Bool
  | ⟨.write _ _ b, n⟩ => n != b.length
  | ⟨.closeWrite _, ok⟩ => !ok
  | _ => false

def opened : Event (Res (P := P)) → Bool
  | ⟨.openWrite _, some _⟩ => true
  | _ => false

theorem arrived_append (a b : List (Event (Res (P := P)))) :
    arrived (a ++ b) = arrived a ++ arrived b := by
  simp [arrived]

/-- Only the content of one file has changed. -/
structure Rewrites (ino : ℕ) (fs fs' : FileSystem) : Prop where
  entry : fs'.entry = fs.entry
  cwd : fs'.cwd = fs.cwd
  limits : fs'.limits = fs.limits
  content : ∀ j, j ≠ ino → fs'.content j = fs.content j

theorem Rewrites.refl (ino : ℕ) (fs : FileSystem) : Rewrites ino fs fs :=
  ⟨rfl, rfl, rfl, fun _ _ => rfl⟩

theorem Rewrites.trans {ino : ℕ} {fs fs₁ fs₂ : FileSystem} (h : Rewrites ino fs fs₁)
    (h' : Rewrites ino fs₁ fs₂) : Rewrites ino fs fs₂ :=
  ⟨h'.entry.trans h.entry, h'.cwd.trans h.cwd, h'.limits.trans h.limits,
    fun j hj => (h'.content j hj).trans (h.content j hj)⟩

theorem rewrites_writeAt (ino off : ℕ) (b : Bytes) (fs : FileSystem) :
    Rewrites ino fs (fs.writeAt ino off b) :=
  ⟨rfl, rfl, rfl, fun _ hj => Function.update_of_ne hj _ _⟩

/-- A stream that was given `text`: it is in the file but for what waits in the buffer. -/
structure Carries (fs : FileSystem) (ofs : OFStream) (text : Bytes) : Prop where
  pos : ofs.pos = (fs.content ofs.ino).length
  text : fs.content ofs.ino ++ ofs.buffer = text

/-- What has become of a stream that was given `b`. -/
structure Streamed (ofs ofs' : OFStream) (b : Bytes) (s s' : World P × Socket)
    (tr : List (Event (Res (P := P)))) : Prop where
  ino : ofs'.ino = ofs.ino
  others : Rewrites ofs.ino s.1.fs s'.1.fs
  unopened : ∀ e ∈ tr, opened e = false
  good_iff : ofs'.bad = false ↔ ofs.bad = false ∧ ∀ e ∈ tr, writeFailed e = false
  carries : ofs'.bad = false → ∀ text, Carries s.1.fs ofs text → Carries s'.1.fs ofs' (text ++ b)

theorem Streamed.refl (ofs : OFStream) (s : World P × Socket) : Streamed ofs ofs [] s s [] :=
  ⟨rfl, .refl _ _, by simp, by simp, fun _ text h => by rwa [List.append_nil]⟩

theorem Streamed.trans {ofs ofs₁ ofs₂ : OFStream} {b b' : Bytes} {s s₁ s₂ : World P × Socket}
    {tr tr' : List (Event (Res (P := P)))} (h : Streamed ofs ofs₁ b s s₁ tr)
    (h' : Streamed ofs₁ ofs₂ b' s₁ s₂ tr') : Streamed ofs ofs₂ (b ++ b') s s₂ (tr ++ tr') := by
  refine ⟨h'.ino.trans h.ino, h.others.trans (h.ino ▸ h'.others),
    List.forall_mem_append.mpr ⟨h.unopened, h'.unopened⟩, ?_, fun hgood text hc => ?_⟩
  · rw [h'.good_iff, h.good_iff, and_assoc, List.forall_mem_append]
  · rw [← List.append_assoc]
    exact h'.carries hgood _ (h.carries (h'.good_iff.mp hgood).1 text hc)

theorem runs_flush {allowed : Call P → Outcome → Prop} {ofs : OFStream} {b : Bytes}
    {s s' : World P × Socket} {tr : List (Event (Res (P := P)))} {x : Option OFStream}
    (h : Prog.Runs (World.Serves allowed) (ofs.flush b) s tr x s') :
    ∃ ofs', x = some ofs' ∧ Streamed ofs ofs' b s s' tr ∧ s'.2 = s.2 ∧ arrived tr = [] ∧
      (ofs'.bad = false → ofs'.buffer = []) := by
  obtain ⟨n, ⟨w', k'⟩, tr', ⟨w, -, hans⟩, hrun, rfl⟩ := h
  obtain ⟨w₀, k⟩ := s
  obtain ⟨c, hprefix, -, rfl, rfl, rfl⟩ := World.answer_write hans
  change Prog.Runs _ (if c.length = (ofs.buffer ++ b).length then _ else _) _ _ _ _ at hrun
  split at hrun
  · rename_i hall
    obtain rfl : c = ofs.buffer ++ b := hprefix.eq_of_length hall
    obtain ⟨rfl, rfl, rfl⟩ := hrun
    refine ⟨_, rfl, ⟨rfl, rewrites_writeAt _ _ _ _, by simp [opened], by simp [writeFailed],
      fun _ text hc => ?_⟩, rfl, rfl, fun _ => rfl⟩
    have hcontent : (w₀.fs.writeAt ofs.ino ofs.pos (ofs.buffer ++ b)).content ofs.ino =
        w₀.fs.content ofs.ino ++ (ofs.buffer ++ b) := by
      rw [FileSystem.writeAt, FileSystem.setContent_content, Function.update_self, hc.pos,
        FileSystem.splice_length]
    constructor
    · have hpos : ofs.pos = (w₀.fs.content ofs.ino).length := hc.pos
      dsimp only
      rw [hcontent, hpos]
      exact List.length_append.symm
    · dsimp only
      rw [hcontent, List.append_nil, ← List.append_assoc, hc.text]
  · rename_i hpart
    obtain ⟨rfl, rfl, rfl⟩ := hrun
    exact ⟨_, rfl, ⟨rfl, rewrites_writeAt _ _ _ _, by simp [opened],
      by simpa [writeFailed] using fun _ => hpart, by simp⟩, rfl, rfl, by simp⟩

theorem runs_write {allowed : Call P → Outcome → Prop} {ofs : OFStream} {b : Bytes}
    {s s' : World P × Socket} {tr : List (Event (Res (P := P)))} {x : Option OFStream}
    (h : Prog.Runs (World.Serves allowed) (ofs.write b) s tr x s') :
    ∃ ofs', x = some ofs' ∧ Streamed ofs ofs' b s s' tr ∧ s'.2 = s.2 ∧ arrived tr = [] := by
  unfold OFStream.write at h
  split at h
  · rename_i hbad
    -- a stream that has gone bad takes nothing
    obtain ⟨rfl, rfl, rfl⟩ := h
    exact ⟨ofs, rfl, ⟨rfl, .refl _ _, by simp, by simp, by simp [hbad]⟩, rfl, rfl⟩
  · rename_i hbad
    split at h
    · obtain ⟨ofs', hx, hstream, hsock, harrived, -⟩ := runs_flush h
      exact ⟨ofs', hx, hstream, hsock, harrived⟩
    · obtain ⟨rfl, rfl, rfl⟩ := h
      refine ⟨_, rfl, ⟨rfl, .refl _ _, by simp, by simp [hbad], fun _ text hc => ⟨hc.pos, ?_⟩⟩,
        rfl, rfl⟩
      dsimp only
      rw [← hc.text, List.append_assoc]

theorem runs_drain {allowed : Call P → Outcome → Prop} {ofs : OFStream}
    {s s' : World P × Socket} {tr : List (Event (Res (P := P)))} {x : Option OFStream}
    (h : Prog.Runs (World.Serves allowed) ofs.drain s tr x s') :
    ∃ ofs', x = some ofs' ∧ Streamed ofs ofs' [] s s' tr ∧ s'.2 = s.2 ∧ arrived tr = [] ∧
      (ofs'.bad = false → ofs'.buffer = []) := by
  unfold OFStream.drain at h
  split at h
  · rename_i hempty
    obtain ⟨rfl, rfl, rfl⟩ := h
    exact ⟨ofs, rfl, .refl ofs _, rfl, rfl, fun _ => hempty⟩
  · exact runs_flush h

theorem runs_close {allowed : Call P → Outcome → Prop} {ofs : OFStream}
    {s s' : World P × Socket} {tr : List (Event (Res (P := P)))} {x : Option OFStream}
    (h : Prog.Runs (World.Serves allowed) ofs.close s tr x s') :
    ∃ ofs', x = some ofs' ∧ Streamed ofs ofs' [] s s' tr ∧ s'.2 = s.2 ∧ arrived tr = [] ∧
      (ofs'.bad = false → ofs'.buffer = []) := by
  rcases Prog.runs_bind.mp h with ⟨ofs₁, s₁, tr₁, tr₂, hrun, hclose, rfl⟩ | ⟨-, hrun⟩
  · obtain ⟨_, hx, hstream, hsock, harrived, hempty⟩ := runs_drain hrun
    cases hx
    obtain ⟨ok, s₂, tr₃, ⟨w, -, hans⟩, ⟨rfl, rfl, rfl⟩, rfl⟩ := hclose
    cases hans
    have hlast : Streamed (P := P) ofs₁
        ⟨ofs₁.ino, ofs₁.pos, ofs₁.buffer, ofs₁.bad || !(!w.failed)⟩ [] s' s'
        [⟨.closeWrite ofs₁.ino, !w.failed⟩] := by
      refine ⟨rfl, .refl _ _, by simp [opened], by simp [writeFailed], fun _ text hc => ?_⟩
      rw [List.append_nil]
      exact ⟨hc.pos, hc.text⟩
    refine ⟨_, rfl, hstream.trans hlast, hsock, ?_, fun hgood => hempty ?_⟩
    · rw [arrived_append, harrived]
      rfl
    · exact (hlast.good_iff.mp hgood).1
  · obtain ⟨_, hx, -⟩ := runs_drain hrun
    cases hx

structure Received (size total : ℕ) (ofs ofs' : OFStream) (complete : Bool)
    (s s' : World P × Socket) (tr : List (Event (Res (P := P)))) : Prop where
  stream : Streamed ofs ofs' (arrived tr) s s' tr
  complete_iff : complete = true ↔ total + (arrived tr).length = size
  consumed : complete = true → s.2.inp = arrived tr ++ s'.2.inp

theorem received_nil {size total : ℕ} (ofs : OFStream) (s : World P × Socket) {complete : Bool}
    (hc : complete = true ↔ total = size) : Received size total ofs ofs complete s s [] :=
  ⟨.refl ofs s, by simpa [arrived] using hc, fun _ => rfl⟩

/-- The upload loop receives until all is there or the connection fails. -/
theorem runs_receive {allowed : Call P → Outcome → Prop} {size fuel total : ℕ} {ofs : OFStream}
    {s s' : World P × Socket} {tr : List (Event (Res (P := P)))} {x : Option (Bool × OFStream)}
    (hfuel : size - total ≤ fuel) (htotal : total ≤ size)
    (h : Prog.Runs (World.Serves allowed) (receive size fuel total ofs) s tr x s') :
    ∃ complete ofs', x = some (complete, ofs') ∧
      Received size total ofs ofs' complete s s' tr := by
  -- one chunk costs one unit of fuel, and no chunk is empty
  induction fuel generalizing total ofs s tr with
  | zero =>
    obtain ⟨rfl, rfl, rfl⟩ := h
    exact ⟨true, ofs, rfl, received_nil ofs _ (by simp; omega)⟩
  | succ fuel ih =>
    rw [receive_succ] at h
    split at h
    · rename_i hlt
      obtain ⟨r, ⟨w₁, k₁⟩, tr₁, ⟨ω, -, hans⟩, hrun, rfl⟩ := h
      obtain ⟨w₀, k₀⟩ := s
      obtain ⟨rfl, hinp⟩ := World.answer_sslRead hans
      -- the read itself leaves the stream as it is
      have hread : Streamed ofs ofs [] ((w₁, k₀) : World P × Socket) (w₁, k₁)
          [⟨.sslRead (min 4096 (size - total)), r⟩] :=
        ⟨rfl, .refl _ _, by simp [opened], by simp [writeFailed],
          fun _ text hc => by rwa [List.append_nil]⟩
      cases r with
      | none =>
        obtain ⟨rfl, rfl, rfl⟩ := hrun
        refine ⟨false, ofs, rfl, hread, ?_, nofun⟩
        simp [arrived]
        omega
      | some b =>
        have hle : b.1.length ≤ size - total := b.2.2.trans (min_le_right _ _)
        have hlen : 0 < b.1.length := List.length_pos_iff.mpr b.2.1
        rcases Prog.runs_bind.mp hrun with
          ⟨ofs₁, s₂, tr₂, tr₃, hwrite, hrest, rfl⟩ | ⟨-, hwrite⟩
        · obtain ⟨_, hx, hstream, hsock, harr⟩ := runs_write hwrite
          cases hx
          have hfuel' : size - (total + b.1.length) ≤ fuel := by omega
          obtain ⟨complete, ofs', rfl, hrec⟩ := ih hfuel' (by omega) hrest
          have harrived : arrived ((⟨.sslRead _, some b⟩ : Event (Res (P := P))) :: (tr₂ ++ tr₃)) =
              b.1 ++ arrived tr₃ := by
            rw [← List.singleton_append, arrived_append, arrived_append, harr]
            simp [arrived]
          refine ⟨complete, ofs', rfl, ?_, ?_, fun hc => ?_⟩
          · rw [harrived]
            exact hread.trans (hstream.trans hrec.stream)
          · rw [hrec.complete_iff, harrived, List.length_append]
            omega
          · rw [harrived, hinp b rfl, List.append_assoc, ← hrec.consumed hc, hsock]
        · obtain ⟨_, hx, -⟩ := runs_write hwrite
          cases hx
    · obtain ⟨rfl, rfl, rfl⟩ := h
      exact ⟨true, ofs, rfl, received_nil ofs _ (by simp; omega)⟩

/-- What an upload leaves at position `p`: what was there, except that the image
directory may be new. -/
structure Keeps (fs fs' : FileSystem) (p : Path) : Prop where
  entry : fs'.entry p = fs.entry p ∨
    p = images :: fs.cwd ∧ fs.entry p = none ∧ Entry.IsDir (fs'.entry p)
  content : ∀ i, fs.entry p = some (.file i) → fs'.content i = fs.content i

theorem Keeps.refl (fs : FileSystem) (p : Path) : Keeps fs fs p := ⟨.inl rfl, fun _ _ => rfl⟩

theorem Keeps.file {fs fs' : FileSystem} {p : Path} {i : ℕ} (h : Keeps fs fs' p)
    (hp : fs.entry p = some (.file i)) : fs'.entry p = some (.file i) := by
  rcases h.entry with he | ⟨-, hn, -⟩
  · rw [he, hp]
  · rw [hp] at hn
    cases hn

theorem Keeps.trans {fs fs₁ fs₂ : FileSystem} {p : Path} (h : Keeps fs fs₁ p)
    (he : fs₂.entry p = fs₁.entry p)
    (hc : ∀ i, fs₁.entry p = some (.file i) → fs₂.content i = fs₁.content i) : Keeps fs fs₂ p := by
  refine ⟨?_, fun i hi => (hc i (h.file hi)).trans (h.content i hi)⟩
  rw [he]
  exact h.entry

theorem keeps_mkdir_images {fs fs' : FileSystem} (hmk : fs.mkdir images = some fs') (p : Path) :
    Keeps fs fs' p := by
  rcases mkdir_images hmk with rfl | ⟨hn, hentry, hcontent, -⟩
  · exact .refl _ p
  · refine ⟨?_, fun i hi => ?_⟩
    · by_cases hp : p = images :: fs.cwd
      · subst hp
        exact .inr ⟨rfl, hn, 0, by rw [hentry, Function.update_self]⟩
      · rw [hentry, Function.update_of_ne hp]
        exact .inl rfl
    · rw [hcontent, Function.update_of_ne (fs.ino_lt p i hi).ne]

def Idle (tr : List (Event (Res (P := P)))) : Prop :=
  ∀ e ∈ tr, opened e = false ∧ writeFailed e = false ∧ arrived [e] = []

theorem Idle.arrived {tr : List (Event (Res (P := P)))} (h : Idle tr) :
    CctvServer.arrived tr = [] := by
  induction tr with
  | nil => rfl
  | cons e tr ih =>
    rw [← List.singleton_append, arrived_append, (h e List.mem_cons_self).2.2,
      ih fun e he => h e (List.mem_cons_of_mem _ he)]
    rfl

section Stages

variable {allowed : Call P → Outcome → Prop}
  (hallowed : ∀ o w, allowed o w → World.Uploading o w)
include hallowed

theorem runs_ensureImages {s s' : World P × Socket} {tr : List (Event (Res (P := P)))}
    {x : Option Unit} (h : Prog.Runs (World.Serves allowed) (ensureImages) s tr x s') :
    (x = none ∧ s.1.fs.tooLong images = true) ∨
    (x = some () ∧ s'.2 = s.2 ∧ Idle tr ∧ s'.1.fs.cwd = s.1.fs.cwd ∧
      (s'.1.fs = s.1.fs ∨ s.1.fs.mkdir images = some s'.1.fs)) := by
  obtain ⟨found, s₁, tr₁, ⟨w, hw, hans⟩, hrun, rfl⟩ := h
  obtain ⟨w₀, k⟩ := s
  have hok : w.failed = false := hallowed _ _ hw
  simp only [World.answer, hok, Bool.false_or] at hans
  split at hans
  · rename_i hlong
    cases hans
    obtain ⟨-, rfl, -⟩ := hrun
    exact .inl ⟨rfl, hlong⟩
  · cases hans
    cases hl : w₀.fs.lookup images with
    | some e =>
      rw [hl] at hrun
      obtain ⟨rfl, rfl, rfl⟩ := hrun
      exact .inr ⟨rfl, rfl, by simp [Idle, opened, writeFailed, CctvServer.arrived], rfl, .inl rfl⟩
    | none =>
      rw [hl] at hrun
      obtain ⟨ok, s₂, tr₂, ⟨w', hw', hans⟩, hrun, rfl⟩ := hrun
      have hok' : w'.failed = false := hallowed _ _ hw'
      have hmissing : w₀.fs.entry (images :: w₀.fs.cwd) = none := by
        rw [FileSystem.lookup, resolve_images] at hl
        exact hl
      obtain ⟨fs', hmk⟩ := mkdir_images_new hmissing
      simp only [World.answer, hok', Bool.false_eq_true, if_false, hmk] at hans
      cases hans
      obtain ⟨rfl, rfl, rfl⟩ := hrun
      refine .inr ⟨rfl, rfl, by simp [Idle, opened, writeFailed, CctvServer.arrived], ?_, .inr hmk⟩
      rcases mkdir_images hmk with rfl | ⟨-, -, -, hcwd⟩
      · rfl
      · exact hcwd

theorem runs_removeFile {path : Bytes} {p : Path} {ino : ℕ} {s s' : World P × Socket}
    {tr : List (Event (Res (P := P)))} {x : Option Unit} (hr : s.1.fs.resolve path = some p)
    (he : s.1.fs.entry p = some (.file ino)) (hshort : s.1.fs.tooLong path = false)
    (h : Prog.Runs (World.Serves allowed) (removeFile path) s tr x s') :
    x = some () ∧ Idle tr ∧ s'.2 = s.2 ∧ s'.1.fs = s.1.fs.unlink p ino he := by
  obtain ⟨ok, s₁, tr₁, ⟨w, hw, hans⟩, hrun, rfl⟩ := h
  obtain ⟨w₀, k⟩ := s
  have hok : w.failed = false := hallowed _ _ hw
  simp only [World.answer, hok, Bool.false_eq_true, if_false,
    FileSystem.remove_existing hr he hshort] at hans
  cases hans
  obtain ⟨rfl, rfl, rfl⟩ := hrun
  exact ⟨rfl, by simp [Idle, opened, writeFailed, CctvServer.arrived], rfl, rfl⟩

/-- What `storeImage` has done: all is stored and answered with success, or some call
has failed, the file is removed and an error is answered. -/
inductive Stored (path : Bytes) (size ino : ℕ) (p : Path) (s s' : World P × Socket)
    (tr : List (Event (Res (P := P)))) : Option Bytes → Prop
  | success (others : Rewrites ino s.1.fs s'.1.fs) (content : s'.1.fs.content ino = arrived tr)
      (complete : (arrived tr).length = size) (consumed : s.2.inp = arrived tr ++ s'.2.inp)
      (good : ∀ e ∈ tr, writeFailed e = false) :
      Stored path size ino p s s' tr (some (uploadSuccess path))
  | removed (code : ℕ) (message : String)
      (gone : s'.1.fs.entry = Function.update s.1.fs.entry p none)
      (content : ∀ j, j ≠ ino → s'.1.fs.content j = s.1.fs.content j)
      (failed : (arrived tr).length ≠ size ∨ ∃ e ∈ tr, writeFailed e = true) :
      Stored path size ino p s s' tr (some (uploadError code message))

theorem runs_giveUp {path : Bytes} {size ino : ℕ} {p : Path} {s s₁ s' : World P × Socket}
    {tr tr' : List (Event (Res (P := P)))} {x : Option Bytes} {code : ℕ} {message : String}
    (hr : s₁.1.fs.resolve path = some p) (he : s₁.1.fs.entry p = some (.file ino))
    (hshort : s₁.1.fs.tooLong path = false) (hothers : Rewrites ino s.1.fs s₁.1.fs)
    (hfailed : (arrived tr).length ≠ size ∨ ∃ e ∈ tr, writeFailed e = true)
    (h : Prog.Runs (World.Serves allowed)
      (removeFile path >>= fun _ => .ret (uploadError code message)) s₁ tr' x s') :
    (∀ e ∈ tr', opened e = false) ∧ Stored path size ino p s s' (tr ++ tr') x := by
  rcases Prog.runs_bind.mp h with ⟨_, s₂, tr₁, tr₂, hrem, ⟨rfl, rfl, rfl⟩, rfl⟩ | ⟨-, hrem⟩
  · obtain ⟨-, hidle, -, hfs⟩ := runs_removeFile hallowed hr he hshort hrem
    rw [List.append_nil]
    refine ⟨fun e he => (hidle e he).1, .removed code message ?_ (fun j hj => ?_) ?_⟩
    · rw [hfs, ← hothers.entry]
      rfl
    · rw [hfs]
      exact hothers.content j hj
    · rw [arrived_append, hidle.arrived, List.append_nil]
      refine hfailed.imp id ?_
      rintro ⟨e, he, hf⟩
      exact ⟨e, List.mem_append_left _ he, hf⟩
  · cases (runs_removeFile hallowed hr he hshort hrem).1

theorem runs_storeImage {path : Bytes} {size ino : ℕ} {p : Path} {s s' : World P × Socket}
    {tr : List (Event (Res (P := P)))} {x : Option Bytes} (hr : s.1.fs.resolve path = some p)
    (he : s.1.fs.entry p = some (.file ino)) (hshort : s.1.fs.tooLong path = false)
    (hempty : s.1.fs.content ino = [])
    (h : Prog.Runs (World.Serves allowed) (storeImage path size ino) s tr x s') :
    (∀ e ∈ tr, opened e = false) ∧ Stored path size ino p s s' tr x := by
  rw [storeImage_eq] at h
  rcases Prog.runs_bind.mp h with ⟨⟨complete, ofs₁⟩, s₁, tr₁, tr₂, hrec, hrun, rfl⟩ | ⟨-, hrec⟩
  · obtain ⟨_, _, hx, hreceived⟩ := runs_receive le_rfl (Nat.zero_le _) hrec
    cases hx
    rcases Prog.runs_bind.mp hrun with ⟨ofs, s₂, tr₃, tr₄, hclose, hend, rfl⟩ | ⟨-, hclose⟩
    · obtain ⟨_, hx, hclosed, hsock, harr, hdrained⟩ := runs_close hclose
      cases hx
      have hstream := hreceived.stream.trans hclosed
      rw [List.append_nil] at hstream
      have hothers : Rewrites ino s.1.fs s₂.1.fs := hstream.others
      -- other files may have been written, but the path leads where it led
      have hr₂ : s₂.1.fs.resolve path = some p := by
        rw [FileSystem.resolve_congr hothers.cwd fun q => by rw [hothers.entry]]
        exact hr
      have he₂ : s₂.1.fs.entry p = some (.file ino) := by rw [hothers.entry, he]
      have hshort₂ : s₂.1.fs.tooLong path = false :=
        (FileSystem.tooLong_congr hothers.limits path).trans hshort
      have harrived : arrived (tr₁ ++ tr₃) = arrived tr₁ := by
        rw [arrived_append, harr, List.append_nil]
      have hcomplete := hreceived.complete_iff
      rw [Nat.zero_add, ← harrived] at hcomplete
      rw [← List.append_assoc]
      rw [answerUpload_eq] at hend
      split at hend
      · rename_i hc
        -- the connection ended early
        obtain ⟨hopened, hstored⟩ := runs_giveUp hallowed hr₂ he₂ hshort₂ hothers
          (.inl fun hlen => by simp [hcomplete.mpr hlen] at hc) hend
        exact ⟨List.forall_mem_append.mpr ⟨hstream.unopened, hopened⟩, hstored⟩
      · rename_i hc
        have hctrue : complete = true := by simpa using hc
        split at hend
        · rename_i hbad
          -- a stream is bad only after a write that failed
          have hfailed : ∃ e ∈ tr₁ ++ tr₃, writeFailed e = true := by
            by_contra hgood
            push Not at hgood
            have hgood' : ofs.bad = false :=
              hstream.good_iff.mpr ⟨rfl, fun e he => by simpa using hgood e he⟩
            rw [hgood'] at hbad
            cases hbad
          obtain ⟨hopened, hstored⟩ := runs_giveUp hallowed hr₂ he₂ hshort₂ hothers
            (.inr hfailed) hend
          exact ⟨List.forall_mem_append.mpr ⟨hstream.unopened, hopened⟩, hstored⟩
        · rename_i hbad
          obtain ⟨rfl, rfl, rfl⟩ := hend
          have hgood : ofs.bad = false := by simpa using hbad
          have hcarries := hstream.carries hgood []
            ⟨(congrArg List.length hempty).symm, by rw [hempty]; rfl⟩
          have htext := hcarries.text
          rw [hdrained hgood, hstream.ino, List.append_nil, List.nil_append] at htext
          rw [List.append_nil]
          refine ⟨hstream.unopened, .success hothers ?_ (hcomplete.mp hctrue) ?_
            (hstream.good_iff.mp hgood).2⟩
          · rw [harrived]
            exact htext
          · rw [harrived, hsock]
            exact hreceived.consumed hctrue
    · obtain ⟨_, hx, -⟩ := runs_close hclose
      cases hx
  · obtain ⟨_, _, hx, -⟩ := runs_receive le_rfl (Nat.zero_le _) hrec
    cases hx

/-- The file was opened, everything has arrived, and no write nor the closing has failed. -/
structure Smooth (size : ℕ) (tr : List (Event (Res (P := P)))) : Prop where
  opened : ∃ e ∈ tr, opened e = true
  complete : (arrived tr).length = size
  good : ∀ e ∈ tr, writeFailed e = false

def imagePosition (fs : FileSystem) (filename : Bytes) : Path := cstr filename :: images :: fs.cwd

inductive Ends (filename : Bytes) (size : ℕ) (s s' : World P × Socket)
    (tr : List (Event (Res (P := P)))) : Option Bytes → Prop
  | thrown (long : s.1.fs.tooLong images = true ∨ s.1.fs.tooLong (fullPath filename) = true) :
      Ends filename size s s' tr none
  | refused (code : ℕ) (message : String) (keeps : ∀ p, Keeps s.1.fs s'.1.fs p)
      (reason : ¬(validUpload filename size = true ∧
        s.1.fs.lookup (fullPath filename) = none ∧ Smooth size tr)) :
      Ends filename size s s' tr (some (uploadError code message))
  | stored (ino : ℕ) (valid : validUpload filename size = true) (name : FileName filename)
      (missing : s.1.fs.lookup (fullPath filename) = none) (smooth : Smooth size tr)
      (entry : s'.1.fs.entry (imagePosition s.1.fs filename) = some (.file ino))
      (lookup : s'.1.fs.lookup (fullPath filename) = some (.file ino))
      (short : s'.1.fs.tooLong (fullPath filename) = false)
      (content : s'.1.fs.content ino = arrived tr) (consumed : s.2.inp = arrived tr ++ s'.2.inp)
      (keeps : ∀ p, p ≠ imagePosition s.1.fs filename → Keeps s.1.fs s'.1.fs p) :
      Ends filename size s s' tr (some (uploadSuccess (fullPath filename)))

theorem ends_created {filename : Bytes} {size ino : ℕ} {s s₁ s₂ s' : World P × Socket}
    {tr₁ tr₂ : List (Event (Res (P := P)))} {x : Option Bytes}
    (hv : validUpload filename size = true) (hidle : Idle tr₁) (hsock₁ : s₁.2 = s.2)
    (hcwd : s₁.1.fs.cwd = s.1.fs.cwd) (hkeep : ∀ p, Keeps s.1.fs s₁.1.fs p)
    (hmissing : FileName filename → s.1.fs.lookup (fullPath filename) = none)
    (hnone : s₁.1.fs.lookup (fullPath filename) = none)
    (hopen : s₁.1.fs.openWrite (fullPath filename) = some (ino, s₂.1.fs))
    (hshort : s₁.1.fs.tooLong (fullPath filename) = false) (hsock : s₂.2 = s₁.2)
    (h : Prog.Runs (World.Serves allowed) (storeImage (fullPath filename) size ino) s₂ tr₂ x s') :
    Ends filename size s s'
      (tr₁ ++ ⟨.openWrite (fullPath filename), some ino⟩ :: tr₂) x := by
  obtain ⟨n, d, hd, hn, hr, rfl, hfs⟩ := FileSystem.openWrite_created hnone hopen
  have hname := fileName_of_missing hv hr hn
  rw [resolve_fullPath hname] at hr
  split at hr
  · cases hr
    have hentry : s₂.1.fs.entry = Function.update s₁.1.fs.entry
        (cstr filename :: images :: s₁.1.fs.cwd) (some (.file s₁.1.fs.fresh)) := by
      rw [hfs]
      rfl
    have hself : s₂.1.fs.entry (cstr filename :: images :: s₁.1.fs.cwd) =
        some (.file s₁.1.fs.fresh) := by rw [hentry, Function.update_self]
    have hcwd₂ : s₂.1.fs.cwd = s₁.1.fs.cwd := by
      rw [hfs]
      rfl
    have hcontent : s₂.1.fs.content = Function.update s₁.1.fs.content s₁.1.fs.fresh [] := by
      rw [hfs]
      rfl
    have hdir : Entry.IsDir (s₂.1.fs.entry (images :: s₂.1.fs.cwd)) :=
      s₂.1.fs.parent_dir _ _ (by rw [hcwd₂, hself]; nofun)
    have hr₂ : s₂.1.fs.resolve (fullPath filename) =
        some (cstr filename :: images :: s₁.1.fs.cwd) := by
      rw [resolve_fullPath hname, if_pos hdir, hcwd₂]
    -- the directory may be new, the position of the image in it is not
    have hpos : imagePosition s.1.fs filename = cstr filename :: images :: s₁.1.fs.cwd := by
      rw [imagePosition, hcwd]
    have hshort₂ : s₂.1.fs.tooLong (fullPath filename) = false :=
      (FileSystem.tooLong_congr (FileSystem.openWrite_limits hopen) _).trans hshort
    obtain ⟨-, hstored⟩ := runs_storeImage hallowed hr₂ hself hshort₂
      (by rw [hcontent, Function.update_self]) h
    have harrived : arrived (tr₁ ++
        (⟨.openWrite (fullPath filename), some s₁.1.fs.fresh⟩ : Event (Res (P := P))) :: tr₂) =
        arrived tr₂ := by
      rw [arrived_append, hidle.arrived]
      rfl
    have hkeeps : ∀ (q : Path) (fs' : FileSystem), fs'.entry q = s₁.1.fs.entry q →
        (∀ j, j ≠ s₁.1.fs.fresh → fs'.content j = s₂.1.fs.content j) → Keeps s.1.fs fs' q := by
      intro q fs' he hc
      refine (hkeep q).trans he fun i hi => ?_
      have hne : i ≠ s₁.1.fs.fresh := (s₁.1.fs.ino_lt q i hi).ne
      rw [hc i hne, hcontent, Function.update_of_ne hne]
    cases hstored with
    | success hothers hc hlen hconsumed hgood =>
      refine .stored s₁.1.fs.fresh hv hname (hmissing hname) ⟨⟨_, List.mem_append_right _
        List.mem_cons_self, rfl⟩, ?_, ?_⟩ ?_ ?_ ?_ ?_ ?_ fun q hq => ?_
      · rw [harrived, hlen]
      · simp only [List.forall_mem_append, List.forall_mem_cons]
        exact ⟨fun e he => (hidle e he).2.1, rfl, hgood⟩
      · rw [hpos, hothers.entry, hself]
      · rw [lookup_fullPath hname, hothers.entry, hothers.cwd, hcwd₂, hself]
      · rw [FileSystem.tooLong_congr hothers.limits, hshort₂]
      · rw [harrived, hc]
      · rw [harrived, ← hconsumed, hsock, hsock₁]
      · rw [hpos] at hq
        refine hkeeps q _ ?_ hothers.content
        rw [hothers.entry, hentry, Function.update_of_ne hq]
    | removed code message hgone hc hfailed =>
      -- the file is taken away again, and with it the only change
      refine .refused code message (fun q => hkeeps q _ ?_ hc) ?_
      · by_cases hq : q = cstr filename :: images :: s₁.1.fs.cwd
        · rw [hgone, hq, Function.update_self, hn]
        · rw [hgone, Function.update_of_ne hq, hentry, Function.update_of_ne hq]
      · rintro ⟨-, -, hsmooth⟩
        rcases hfailed with hlen | ⟨e, he, hf⟩
        · exact hlen (harrived ▸ hsmooth.complete)
        · have := hsmooth.good e (by simp [he])
          rw [hf] at this
          cases this
  · cases hr

theorem runs_handleImageUpload {filename : Bytes} {size : ℕ} {s s' : World P × Socket}
    {tr : List (Event (Res (P := P)))} {x : Option Bytes}
    (h : Prog.Runs (World.Serves allowed) (handleImageUpload filename size) s tr x s') :
    Ends filename size s s' tr x := by
  rw [handleImageUpload_eq] at h
  rcases Prog.runs_bind.mp h with ⟨_, s₁, tr₁, tr₂, hens, hrun, rfl⟩ | ⟨rfl, hens⟩
  · obtain ⟨hx, -⟩ | ⟨-, hsock₁, hidle, hcwd, hmk⟩ := runs_ensureImages hallowed hens
    · cases hx
    have hkeep : ∀ p, Keeps s.1.fs s₁.1.fs p := by
      rcases hmk with hfs | hmk
      · rw [hfs]
        exact Keeps.refl _
      · exact keeps_mkdir_images hmk
    have hlimits : s₁.1.fs.limits = s.1.fs.limits := by
      rcases hmk with hfs | hmk
      · rw [hfs]
      · exact FileSystem.mkdir_limits hmk
    have hmissing : FileName filename → s₁.1.fs.lookup (fullPath filename) = none →
        s.1.fs.lookup (fullPath filename) = none := by
      intro hname hnone
      rcases hmk with hfs | hmk
      · rwa [hfs] at hnone
      · rwa [lookup_mkdir_images hname hmk] at hnone
    -- without a file that was opened nothing is stored
    have hunopened : ∀ tr', (∀ e ∈ tr', opened e = false) → ¬ Smooth size (tr₁ ++ tr') := by
      rintro tr' htr' ⟨⟨e, he, hopen⟩, -⟩
      have hfalse : opened e = false := (List.mem_append.mp he).elim (fun he => (hidle e he).1)
        (htr' e)
      rw [hfalse] at hopen
      cases hopen
    split at hrun
    · rename_i hv
      obtain ⟨rfl, rfl, rfl⟩ := hrun
      refine .refused _ _ hkeep fun h => ?_
      simp [h.1] at hv
    · rename_i hv
      have hv' : validUpload filename size = true := by simpa using hv
      obtain ⟨found, s₂, tr₃, ⟨w, hw, hans⟩, hrun, rfl⟩ := hrun
      obtain ⟨w₁, k₁⟩ := s₁
      have hok : w.failed = false := hallowed _ _ hw
      simp only [World.answer, hok, Bool.false_or] at hans
      split at hans
      · rename_i hlong
        cases hans
        obtain ⟨-, rfl, -⟩ := hrun
        exact .thrown (.inr ((FileSystem.tooLong_congr hlimits _).symm.trans hlong))
      · rename_i hlong
        have hshort : w₁.fs.tooLong (fullPath filename) = false := by simpa using hlong
        cases hans
        cases hl : w₁.fs.lookup (fullPath filename) with
        | some e =>
          rw [hl] at hrun
          obtain ⟨rfl, rfl, rfl⟩ := hrun
          exact .refused _ _ hkeep fun h => hunopened _ (by simp [opened]) h.2.2
        | none =>
          rw [hl] at hrun
          obtain ⟨ino, s₃, tr₄, ⟨w', -, hans⟩, hrun, rfl⟩ := hrun
          simp only [World.answer] at hans
          split at hans
          · cases hans
            obtain ⟨rfl, rfl, rfl⟩ := hrun
            exact .refused _ _ hkeep fun h => hunopened _ (by simp [opened]) h.2.2
          · split at hans
            · rename_i ino' fs hopen
              cases hans
              have hidle' : Idle (tr₁ ++
                  [(⟨.fileExists (fullPath filename), some false⟩ : Event (Res (P := P)))]) :=
                List.forall_mem_append.mpr
                  ⟨hidle, by simp [opened, writeFailed, CctvServer.arrived]⟩
              have hstore : Prog.Runs (World.Serves allowed)
                  (storeImage (fullPath filename) size ino') ({ w₁ with fs := fs }, k₁) tr₄ x s' :=
                hrun
              have hsock : (({ w₁ with fs := fs } : World P), k₁).2 = (w₁, k₁).2 := rfl
              have hends := ends_created hallowed hv' hidle' hsock₁ hcwd hkeep
                (fun hname => hmissing hname hl) hl hopen hshort hsock hstore
              rwa [List.append_assoc] at hends
            · cases hans
              obtain ⟨rfl, rfl, rfl⟩ := hrun
              exact .refused _ _ hkeep fun h => hunopened _ (by simp [opened]) h.2.2
  · obtain ⟨-, hlong⟩ | ⟨hx, -⟩ := runs_ensureImages hallowed hens
    · exact .thrown (.inl hlong)
    · cases hx

end Stages

theorem Smooth.take_inp {size : ℕ} {tr : List (Event (Res (P := P)))} {inp rest : Bytes}
    (h : Smooth size tr) (hinp : inp = arrived tr ++ rest) : inp.take size = arrived tr := by
  rw [hinp, ← h.complete, List.take_left]

def closeCalls (ofs : OFStream) : ℕ := if ofs.buffer = [] then 1 else 2

theorem closeCalls_le (ofs : OFStream) : 1 ≤ closeCalls ofs ∧ closeCalls ofs ≤ 2 := by
  unfold closeCalls
  split <;> omega

theorem atMost_flush {α : Type} {ofs : OFStream} {b : Bytes} {n : ℕ} {f : OFStream → Server P α}
    (hf : ∀ ofs', closeCalls ofs' ≤ closeCalls ofs → (f ofs').AtMost n) :
    (ofs.flush b >>= f).AtMost (n + 1) := by
  intro k
  change Prog.AtMost ((if k = (ofs.buffer ++ b).length then Prog.ret _ else .ret _) >>= f) n
  split
  · exact hf _ (closeCalls_le ofs).1
  · exact hf _ le_rfl

theorem atMost_close (ofs : OFStream) : (ofs.close (P := P)).AtMost (closeCalls ofs) := by
  have hclose : ∀ ofs' : OFStream, (sys (.closeWrite ofs'.ino) >>= fun ok =>
      .ret ⟨ofs'.ino, ofs'.pos, ofs'.buffer, ofs'.bad || !ok⟩ : Server P OFStream).AtMost 1 :=
    fun _ _ => trivial
  unfold OFStream.close OFStream.drain closeCalls
  split
  · exact hclose ofs
  · exact atMost_flush fun ofs' _ => hclose ofs'

/-- A chunk that does not reach the file with its own call does so when the stream closes. -/
theorem atMost_receive {f : Bool → OFStream → Server P Bytes} {n : ℕ}
    (hf : ∀ complete ofs, (f complete ofs).AtMost n) (filesize fuel total : ℕ) (ofs : OFStream) :
    (receive filesize fuel total ofs >>= fun x => x.2.close >>= f x.1).AtMost
      (2 * fuel + (closeCalls ofs + n)) := by
  have hclose : ∀ complete (ofs : OFStream),
      (ofs.close >>= f complete).AtMost (closeCalls ofs + n) :=
    fun complete ofs => Prog.atMost_bind (atMost_close ofs) (hf complete)
  induction fuel generalizing total ofs with
  | zero => exact (hclose true ofs).mono (Nat.le_add_left _ _)
  | succ fuel ih =>
    have hle := closeCalls_le ofs
    rw [receive_succ]
    split
    · rw [show 2 * (fuel + 1) + (closeCalls ofs + n) = 2 * fuel + (closeCalls ofs + n) + 1 + 1 by
        omega]
      intro b
      cases b with
      | none => exact (hclose false ofs).mono (by omega)
      | some b =>
        change Prog.AtMost ((ofs.write b.1 >>= _) >>= _) _
        rw [Prog.bind_assoc]
        unfold OFStream.write
        split
        · exact (ih _ ofs).mono (by omega)
        · split
          · exact atMost_flush fun ofs' hofs' => (ih _ ofs').mono (by omega)
          · refine (ih _ ⟨ofs.ino, ofs.pos, ofs.buffer ++ b.1, false⟩).mono ?_
            have := closeCalls_le ⟨ofs.ino, ofs.pos, ofs.buffer ++ b.1, false⟩
            omega
    · exact (hclose true ofs).mono (by omega)

theorem atMost_handleImageUpload (filename : Bytes) (filesize : ℕ) :
    (handleImageUpload (P := P) filename filesize).AtMost (2 * filesize + 6) := by
  have hensure : (ensureImages (P := P)).AtMost 2 := by
    intro found
    match found with
    | none => trivial
    | some true => trivial
    | some false =>
      intro ok
      cases ok <;> trivial
  have hremove : ∀ code message, (removeFile (fullPath filename) >>= fun _ =>
      .ret (uploadError code message) : Server P Bytes).AtMost 1 := by
    intro code message ok
    cases ok <;> trivial
  have hanswer : ∀ complete (ofs : OFStream),
      (answerUpload (P := P) (fullPath filename) complete ofs).AtMost 1 := by
    intro complete ofs
    rw [answerUpload_eq]
    split_ifs
    · exact hremove _ _
    · exact hremove _ _
    · trivial
  have hstore : ∀ ino, (storeImage (P := P) (fullPath filename) filesize ino).AtMost
      (2 * filesize + 2) :=
    fun ino => atMost_receive hanswer filesize filesize 0 ⟨ino, 0, [], false⟩
  rw [handleImageUpload_eq, show 2 * filesize + 6 = 2 + (2 * filesize + 2 + 1 + 1) by omega]
  refine Prog.atMost_bind hensure fun _ => ?_
  split
  · trivial
  · intro found
    match found with
    | none => trivial
    | some true => trivial
    | some false =>
      intro ino
      cases ino with
      | none => trivial
      | some ino => exact hstore ino

theorem validUpload_iff {filename : Bytes} {n : ℕ} (hn : 1 ≤ n) :
    validUpload filename n = true ↔
      filename ≠ [] ∧ ¬ ascii ".." <:+: filename ∧ (47 : UInt8) ∉ filename ∧
        (92 : UInt8) ∉ filename := by
  have hn0 : n ≠ 0 := by omega
  simp [validUpload, contains, hn0, List.singleton_infix_iff, and_assoc]

theorem uploadError_ne_success (filename : Bytes) (code : ℕ) (message : String) :
    uploadError code message ≠ uploadSuccess (fullPath filename) := by
  intro h
  obtain ⟨ino, hphase⟩ := justified_error ⟨filename, 0, .opening⟩ code message h
  cases hphase

/-- An upload is answered with success exactly if its name is accepted, its target was
missing and nothing has failed. Then the target holds the next `n` bytes of the stream,
which are consumed; otherwise every file is as before. -/
theorem upload_all_or_nothing {filename : Bytes} {n : ℕ} {s s' : World P × Socket}
    {tr : List (Event (Res (P := P)))} {x : Option Bytes} (hn : 1 ≤ n)
    (himages : s.1.fs.tooLong images = false)
    (htarget : s.1.fs.tooLong (fullPath filename) = false)
    (h : Prog.Runs (World.Serves World.Uploading) (handleImageUpload filename n) s tr x s') :
    tr.length ≤ 2 * n + 6 ∧ ∃ reply, x = some reply ∧
      (reply = uploadSuccess (fullPath filename) ↔
        (filename ≠ [] ∧ ¬ ascii ".." <:+: filename ∧ (47 : UInt8) ∉ filename ∧
          (92 : UInt8) ∉ filename) ∧
        s.1.fs.lookup (fullPath filename) = none ∧ Smooth n tr) ∧
      (reply = uploadSuccess (fullPath filename) → ∃ ino,
        s'.1.fs.entry (imagePosition s.1.fs filename) = some (.file ino) ∧
        s'.1.fs.lookup (fullPath filename) = some (.file ino) ∧
        n ≤ s.2.inp.length ∧ s'.1.fs.content ino = s.2.inp.take n ∧
        s'.2.inp = s.2.inp.drop n) ∧
      (reply ≠ uploadSuccess (fullPath filename) → ∀ p, Keeps s.1.fs s'.1.fs p) ∧
      ∀ p, p ≠ imagePosition s.1.fs filename → Keeps s.1.fs s'.1.fs p := by
  refine ⟨(atMost_handleImageUpload filename n).of_runs h, ?_⟩
  cases runs_handleImageUpload (fun _ _ h => h) h with
  | thrown hlong =>
    rw [himages, htarget] at hlong
    simp at hlong
  | refused code message hkeeps hreason =>
    have hne := uploadError_ne_success filename code message
    refine ⟨_, rfl, iff_of_false hne fun h => hreason ?_, fun h => absurd h hne, fun _ => hkeeps,
      fun p _ => hkeeps p⟩
    exact ⟨(validUpload_iff hn).mpr h.1, h.2⟩
  | stored ino hv hname hmissing hsmooth hentry hlookup _ hcontent hconsumed hkeeps =>
    have htake := hsmooth.take_inp hconsumed
    have hdrop : s.2.inp.drop n = s'.2.inp := by
      rw [hconsumed, ← hsmooth.complete, List.drop_left]
    refine ⟨_, rfl, iff_of_true rfl ⟨(validUpload_iff hn).mp hv, hmissing, hsmooth⟩, fun _ => ?_,
      fun h => absurd rfl h, hkeeps⟩
    refine ⟨ino, hentry, hlookup, ?_, ?_, hdrop.symm⟩
    · rw [hconsumed, List.length_append, hsmooth.complete]
      exact Nat.le_add_right _ _
    · rw [hcontent, htake]

def shortReads : List Outcome := [.ok, .ok, .ok, .ok, .short 2, .short 1, .short 3]

def uploadInParts : List (Event (Res (P := .reference))) × Option Bytes ×
    (World .reference × Socket) :=
  Prog.run World.answer .ok (handleImageUpload (ascii "a") 6) shortReads
    (Reference.world Reference.emptyFs, ⟨ascii "abcdefgh", []⟩)

theorem uploadInParts_runs : Prog.Runs (World.Serves World.Uploading)
    (handleImageUpload (ascii "a") 6) (Reference.world Reference.emptyFs, ⟨ascii "abcdefgh", []⟩)
    uploadInParts.1 (some (uploadSuccess (fullPath (ascii "a")))) uploadInParts.2.2 := by
  have hsuccess : uploadInParts.2.1 = some (uploadSuccess (fullPath (ascii "a"))) := by decide
  have hok : ∀ w ∈ shortReads, w.failed = false := by decide
  rw [← hsuccess]
  exact Prog.run_runs _ _ _ (fun o => World.Uploading.of_faultless o _ rfl) fun w hw o =>
    World.Uploading.of_faultless o w (hok w hw)

theorem parts_are_stored : uploadInParts.1.length = 9 ∧
    ∃ ino, uploadInParts.2.2.1.fs.lookup (fullPath (ascii "a")) = some (.file ino) ∧
      uploadInParts.2.2.1.fs.content ino = ascii "abcdef" ∧
      uploadInParts.2.2.2.inp = ascii "gh" := by
  obtain ⟨-, reply, hreply, -, hstored, -⟩ :=
    upload_all_or_nothing (by decide) (by decide) (by decide) uploadInParts_runs
  obtain ⟨ino, -, hlookup, -, hcontent, hinp⟩ := hstored (Option.some.inj hreply).symm
  exact ⟨by decide, ino, hlookup, hcontent, hinp⟩

end CctvServer
