import CctvServer.Downloads
import CctvServer.Nodes
import CctvServer.TcpServer

namespace CctvServer

variable {P : Platform}

/-- A `std::ifstream`: the offset of its next read and the state bits that the loop can meet. -/
structure IFStream where
  pos : ℕ
  eof : Bool
  fail : Bool
  deriving DecidableEq, Repr

namespace IFStream

/-- `file.read(buffer, 4096)` and what was put into the buffer. A stream that is not good
delivers nothing and fails; a short read meets the end of the file. -/
def read (e : Entry) (file : IFStream) : Server P (Bytes × IFStream) :=
  if file.eof || file.fail then return ([], { file with fail := true })
  else do
    match ← sys (.read e file.pos 4096) with
    | none => return ([], { file with fail := true })
    | some b =>
        return (b, ⟨file.pos + b.length, decide (b.length < 4096), decide (b.length < 4096)⟩)

/-- `while (!file.eof())`; `none` is a loop that still goes on. -/
def sendFile (e : Entry) : ℕ → IFStream → Server P (Option Unit)
  | 0, _ => return none
  | fuel + 1, file =>
      if file.eof then return some ()
      else do
        let (b, file) ← file.read e
        if b = [] then sendFile e fuel file
        else if ← sys (.sslWrite b) then sendFile e fuel file
        else return some ()

/-- The two `seekg` and `tellg`. A failed stream is not positioned again. -/
def fileSize (e : Entry) : Server P (IFStream × ℕ) := do
  match ← sys (.seekEnd e) with
  | some n =>
      let ok ← sys (.seekBeg e)
      return (⟨0, false, !ok⟩, n)
  | none => return (⟨0, false, true⟩, 2 ^ 64 - 1)

def handleGetImage (fuel : ℕ) (imagePath : Bytes) : Server P (Option Unit) := do
  match ← sys (.openRead imagePath) with
  | none =>
      let _ ← sys (.sslWrite ImageHandler.notFound)
      return some ()
  | some e =>
      let (file, size) ← fileSize e
      if ← sys (.sslWrite (header size)) then sendFile e fuel file else return some ()

/-- The loop on a stream that has failed goes on for ever. -/
theorem sendFile_failed (e : Entry) (fuel pos : ℕ) :
    sendFile (P := P) e fuel ⟨pos, false, true⟩ = .ret none := by
  induction fuel with
  | zero => rfl
  | succ fuel ih => exact ih

theorem sendFile_good (e : Entry) (fuel pos : ℕ) :
    sendFile (P := P) e (fuel + 1) ⟨pos, false, false⟩ = .call (.read e pos 4096) fun b =>
      match b with
      | none => .ret none
      | some [] => sendFile e fuel ⟨pos, true, true⟩
      | some b => .call (.sslWrite b) fun ok =>
          if ok then
            sendFile e fuel ⟨pos + b.length, decide (b.length < 4096), decide (b.length < 4096)⟩
          else .ret (some ()) := by
  refine congrArg (Prog.call _) (funext fun b => ?_)
  match b with
  | none => exact sendFile_failed e fuel pos
  | some [] => rfl
  | some (c :: b) => rfl

section Agree

variable {E : Env (Res (P := P)) (World P × Socket)} {s s' : World P × Socket}
  {tr : List (Event (Res (P := P)))}

/-- What returns with little fuel returns with the stream state spelled out, one pass later. -/
theorem runs_of_sendFile {e : Entry} {fuel pos : ℕ}
    (h : Prog.Runs E (ImageHandler.sendFile e fuel pos) s tr (some (some ())) s') :
    Prog.Runs E (sendFile e (fuel + 1) ⟨pos, false, false⟩) s tr (some (some ())) s' := by
  induction fuel generalizing pos s tr with
  | zero => exact absurd h.2.1 (by simp)
  | succ fuel ih =>
    rw [CctvServer.sendFile_succ] at h
    rw [sendFile_good]
    obtain ⟨b, s₁, tr₁, hread, hrun, rfl⟩ := h
    refine ⟨b, s₁, tr₁, hread, ?_, rfl⟩
    match b with
    | none => exact hrun
    | some [] => exact hrun
    | some (c :: b) =>
      obtain ⟨ok, s₂, tr₂, hwrite, hrun, rfl⟩ := hrun
      refine ⟨ok, s₂, tr₂, hwrite, ?_, rfl⟩
      beta_reduce at hrun ⊢
      cases ok with
      | false => exact hrun
      | true =>
        simp only [if_true] at hrun ⊢
        by_cases hshort : (c :: b).length < 4096
        · rw [if_pos hshort] at hrun
          simp only [hshort, decide_true]
          exact hrun
        · rw [if_neg hshort] at hrun
          simp only [hshort, decide_false]
          exact ih hrun

theorem sendFile_of_runs {e : Entry} {fuel pos : ℕ}
    (h : Prog.Runs E (sendFile e fuel ⟨pos, false, false⟩) s tr (some (some ())) s') :
    Prog.Runs E (ImageHandler.sendFile e fuel pos) s tr (some (some ())) s' := by
  induction fuel generalizing pos s tr with
  | zero => exact absurd h.2.1 (by simp)
  | succ fuel ih =>
    rw [sendFile_good] at h
    rw [CctvServer.sendFile_succ]
    obtain ⟨b, s₁, tr₁, hread, hrun, rfl⟩ := h
    refine ⟨b, s₁, tr₁, hread, ?_, rfl⟩
    match b with
    | none => exact hrun
    | some [] =>
      cases fuel with
      | zero => exact absurd hrun.2.1 (by simp)
      | succ fuel => exact hrun
    | some (c :: b) =>
      obtain ⟨ok, s₂, tr₂, hwrite, hrun, rfl⟩ := hrun
      refine ⟨ok, s₂, tr₂, hwrite, ?_, rfl⟩
      beta_reduce at hrun ⊢
      cases ok with
      | false => exact hrun
      | true =>
        simp only [if_true] at hrun ⊢
        by_cases hshort : (c :: b).length < 4096
        · simp only [hshort, decide_true] at hrun
          rw [if_pos hshort]
          cases fuel with
          | zero => exact absurd hrun.2.1 (by simp)
          | succ fuel => exact hrun
        · simp only [hshort, decide_false] at hrun
          rw [if_neg hshort]
          exact ih hrun

end Agree

/-- The loop that starts at `pos` ends: no read fails, up to the one that meets the end, unless
a write has failed before it. -/
def LoopEnds (content : Bytes) (pos : ℕ) (ω : ℕ → Outcome) : Prop :=
  ∀ i ≤ (content.length - pos) / 4096, (ω (2 * i)).failed = true →
    ∃ j < i, (ω (2 * j + 1)).failed = true

theorem loopEnds_of_write {content : Bytes} {pos : ℕ} {ω : ℕ → Outcome}
    (hread : (ω 0).failed = false) (hwrite : (ω 1).failed = true) : LoopEnds content pos ω := by
  intro i _ hi
  cases i with
  | zero => rw [hread] at hi; cases hi
  | succ i => exact ⟨0, Nat.succ_pos i, hwrite⟩

theorem loopEnds_of_short {content : Bytes} {pos : ℕ} {ω : ℕ → Outcome}
    (hread : (ω 0).failed = false) (hshort : content.length - pos < 4096) :
    LoopEnds content pos ω := by
  intro i hle hi
  rw [Nat.div_eq_of_lt hshort, Nat.le_zero] at hle
  subst hle
  rw [hread] at hi
  cases hi

theorem loopEnds_full {content : Bytes} {pos : ℕ} {ω : ℕ → Outcome}
    (hread : (ω 0).failed = false) (hwrite : (ω 1).failed = false)
    (hfull : 4096 ≤ content.length - pos) :
    LoopEnds content (pos + 4096) (fun n => ω (n + 2)) ↔ LoopEnds content pos ω := by
  have hdiv : (content.length - pos) / 4096 = (content.length - (pos + 4096)) / 4096 + 1 := by omega
  unfold LoopEnds
  rw [hdiv]
  constructor
  · intro h i hle hi
    cases i with
    | zero => rw [hread] at hi; cases hi
    | succ i =>
      obtain ⟨j, hj, hfail⟩ := h i (Nat.le_of_succ_le_succ hle) hi
      exact ⟨j + 1, Nat.succ_lt_succ hj, hfail⟩
  · intro h i hle hi
    obtain ⟨j, hj, hfail⟩ := h (i + 1) (Nat.succ_le_succ hle) hi
    cases j with
    | zero => rw [hwrite] at hfail; cases hfail
    | succ j => exact ⟨j, Nat.lt_of_succ_lt_succ hj, hfail⟩

theorem exists_feed_succ {e : Entry} {file : IFStream} {ω : ℕ → Outcome} {s : World P × Socket} :
    (∃ fuel, (sendFile e fuel file).feed World.answer ω s = some (some ())) ↔
      ∃ fuel, (sendFile e (fuel + 1) file).feed World.answer ω s = some (some ()) := by
  constructor
  · rintro ⟨fuel, h⟩
    cases fuel with
    | zero => cases h
    | succ fuel => exact ⟨fuel, h⟩
  · rintro ⟨fuel, h⟩
    exact ⟨fuel + 1, h⟩

/-- The loop over a file ends exactly when no read error comes first. -/
theorem sendFile_ends_iff {w : World P} {e : Entry} {content : Bytes}
    (he : w.fs.node e = .file content) {pos : ℕ} (hpos : pos ≤ content.length) (ω : ℕ → Outcome)
    (k : Socket) :
    (∃ fuel, (sendFile e fuel ⟨pos, false, false⟩).feed World.answer ω (w, k) = some (some ())) ↔
      LoopEnds content pos ω := by
  induction hn : content.length - pos using Nat.strong_induction_on generalizing pos ω k with
  | _ n ih =>
    subst hn
    rw [exists_feed_succ]
    simp only [sendFile_good, Prog.feed_call, World.answer_read, he, Node.read]
    cases hread : (ω 0).failed with
    | true =>
      refine iff_of_false (fun ⟨_, h⟩ => by cases h) fun h => ?_
      obtain ⟨j, hj, -⟩ := h 0 (Nat.zero_le _) hread
      exact absurd hj (Nat.not_lt_zero j)
    | false =>
      simp only [Bool.false_eq_true, if_false]
      have hlen : ((content.drop pos).take 4096).length = min 4096 (content.length - pos) := by
        rw [List.length_take, List.length_drop]
      generalize (content.drop pos).take 4096 = b at hlen
      match b with
      | [] =>
        have hshort : content.length - pos < 4096 := by
          rw [List.length_nil] at hlen
          omega
        refine iff_of_true ⟨1, rfl⟩ (loopEnds_of_short hread hshort)
      | c :: b =>
        simp only [Prog.feed_call, World.answer_sslWrite]
        cases hwrite : (ω 1).failed with
        | true =>
          exact iff_of_true ⟨0, rfl⟩ (loopEnds_of_write hread hwrite)
        | false =>
          simp only [Bool.not_false, if_true, Bool.false_eq_true, if_false]
          by_cases hshort : (c :: b).length < 4096
          · simp only [hshort, decide_true]
            exact iff_of_true ⟨1, rfl⟩ (loopEnds_of_short hread (by omega))
          · simp only [hshort, decide_false]
            have hfull : (c :: b).length = 4096 := by omega
            rw [hfull, ← loopEnds_full hread hwrite (by omega)]
            exact ih _ (by omega) (by omega) _ _ rfl

def opened (w : World P) (path : Bytes) (ω : ℕ → Outcome) : Option Entry :=
  if (ω 0).failed || w.fs.tooLong path then none else w.fs.lookup path

/-- The outcome of sending the header, which comes earlier when the first `seekg` fails. -/
def headerOutcome (ω : ℕ → Outcome) : Outcome := if (ω 1).failed then ω 2 else ω 3

/-- The downloads that end: there is nothing to open, the header is not sent, or both `seekg`
succeed on a file and no read fails before a write does. -/
def Finishes (w : World P) (path : Bytes) (ω : ℕ → Outcome) : Prop :=
  ∀ e, opened w path ω = some e → (headerOutcome ω).failed = true ∨
    ((ω 1).failed = false ∧ (ω 2).failed = false ∧
      ∃ content, w.fs.node e = .file content ∧ LoopEnds content 0 fun n => ω (n + 4))

theorem sendFile_dir {w : World P} {e : Entry} {n : ℕ} (he : w.fs.node e = .dir n) (fuel pos : ℕ)
    (ω : ℕ → Outcome) (k : Socket) :
    (sendFile e fuel ⟨pos, false, false⟩).feed World.answer ω (w, k) = some none := by
  cases fuel with
  | zero => rfl
  | succ fuel =>
    rw [sendFile_good, Prog.feed_call, World.answer_read, he, Node.read, ite_self]
    rfl

/-- A download with its loop as a parameter, which is given the entry and whether the stream
is good. -/
def upToLoop (path : Bytes) (loop : Entry → Bool → Server P (Option Unit)) :
    Server P (Option Unit) :=
  .call (.openRead path) fun e =>
    match e with
    | none => .call (.sslWrite ImageHandler.notFound) fun _ => .ret (some ())
    | some e => .call (.seekEnd e) fun n =>
        match n with
        | none => .call (.sslWrite (header (2 ^ 64 - 1))) fun ok =>
            if ok then loop e false else .ret (some ())
        | some n => .call (.seekBeg e) fun atStart => .call (.sslWrite (header n)) fun ok =>
            if ok then loop e atStart else .ret (some ())

theorem handleGetImage_eq (fuel : ℕ) (path : Bytes) : handleGetImage (P := P) fuel path =
    upToLoop path fun e good => sendFile e fuel ⟨0, false, !good⟩ := by
  rw [handleGetImage, Prog.perform_bind]
  refine congrArg (Prog.call _) (funext fun e => ?_)
  cases e with
  | none => rfl
  | some e => exact congrArg (Prog.call _) (funext fun n => by cases n <;> rfl)

theorem upToLoop_sendFile (fuel : ℕ) (path : Bytes) :
    ImageHandler.handleGetImage (P := P) fuel path =
      upToLoop path fun e good => if good then ImageHandler.sendFile e fuel 0 else .ret none := by
  rw [CctvServer.handleGetImage_eq]
  refine congrArg (Prog.call _) (funext fun e => ?_)
  cases e with
  | none => rfl
  | some e => exact congrArg (Prog.call _) (funext fun n => by cases n <;> rfl)

theorem upToLoop_mono {E : Env (Res (P := P)) (World P × Socket)} {s s' : World P × Socket}
    {tr : List (Event (Res (P := P)))} {path : Bytes}
    {loop loop' : Entry → Bool → Server P (Option Unit)}
    (hloop : ∀ {e good s tr}, Prog.Runs E (loop e good) s tr (some (some ())) s' →
      Prog.Runs E (loop' e good) s tr (some (some ())) s')
    (h : Prog.Runs E (upToLoop path loop) s tr (some (some ())) s') :
    Prog.Runs E (upToLoop path loop') s tr (some (some ())) s' := by
  refine Prog.Runs.call_mono (fun e _ _ h => ?_) h
  cases e with
  | none => exact h
  | some e =>
    refine Prog.Runs.call_mono (fun n _ _ h => ?_) h
    cases n with
    | none =>
      refine Prog.Runs.call_mono (fun ok _ _ h => ?_) h
      cases ok with
      | false => exact h
      | true => exact hloop h
    | some n =>
      refine Prog.Runs.call_mono (fun atStart _ _ h => ?_) h
      refine Prog.Runs.call_mono (fun ok _ _ h => ?_) h
      cases ok with
      | false => exact h
      | true => exact hloop h

/-- A download returns after finitely many passes of its loop exactly when nothing but the end
of the file or a failed write has to end it. -/
theorem download_loop_ends_iff (w : World P) (path : Bytes) (ω : ℕ → Outcome) (k : Socket) :
    (∃ fuel, (handleGetImage fuel path).feed World.answer ω (w, k) = some (some ())) ↔
      Finishes w path ω := by
  simp only [handleGetImage_eq, upToLoop, Prog.feed_call, World.answer_openRead]
  unfold Finishes opened
  cases hopen : (if (ω 0).failed || w.fs.tooLong path then none else w.fs.lookup path) with
  | none =>
    refine iff_of_true ⟨0, ?_⟩ nofun
    simp only [Prog.feed_call]
    rfl
  | some e =>
    simp only [Option.some.injEq, forall_eq', headerOutcome, Prog.feed_call, World.answer_seekEnd]
    cases hend : (ω 1).failed with
    | true =>
      simp only [Prog.feed_call, World.answer_sslWrite, if_true]
      cases hheader : (ω 2).failed with
      | true => exact iff_of_true ⟨0, rfl⟩ (.inl rfl)
      | false =>
        refine iff_of_false (fun ⟨fuel, h⟩ => ?_) (by simp)
        simp only [Bool.not_false, if_true, sendFile_failed] at h
        cases h
    | false =>
      simp only [Prog.feed_call, World.answer_seekBeg, World.answer_sslWrite, Bool.false_eq_true,
        if_false]
      cases hheader : (ω 3).failed with
      | true => exact iff_of_true ⟨0, rfl⟩ (.inl rfl)
      | false =>
        simp only [Bool.not_false, if_true, Bool.false_eq_true, if_false, false_or, true_and,
          Bool.not_not]
        cases hbeg : (ω 2).failed with
        | true =>
          refine iff_of_false (fun ⟨fuel, h⟩ => ?_) (by simp)
          rw [sendFile_failed] at h
          cases h
        | false =>
          simp only [true_and]
          cases hnode : w.fs.node e with
          | dir n =>
            refine iff_of_false (fun ⟨fuel, h⟩ => ?_) (by simp)
            rw [sendFile_dir hnode] at h
            cases h
          | file content =>
            simp only [Node.file.injEq, exists_eq_left']
            exact sendFile_ends_iff hnode (Nat.zero_le _) _ _

/-- What returns does so in the model of the handler as well, with the same calls. -/
theorem returns_iff {E : Env (Res (P := P)) (World P × Socket)} {s s' : World P × Socket}
    {tr : List (Event (Res (P := P)))} {path : Bytes} :
    (∃ fuel, Prog.Runs E (handleGetImage fuel path) s tr (some (some ())) s') ↔
      ∃ fuel, Prog.Runs E (ImageHandler.handleGetImage fuel path) s tr (some (some ())) s' := by
  simp only [handleGetImage_eq, upToLoop_sendFile]
  constructor
  · rintro ⟨fuel, h⟩
    refine ⟨fuel, upToLoop_mono (fun {e good _ _} h => ?_) h⟩
    cases good with
    | false =>
      rw [Bool.not_false, sendFile_failed] at h
      exact h
    | true => exact sendFile_of_runs h
  · rintro ⟨fuel, h⟩
    -- the stream's state costs one pass more
    refine ⟨fuel + 1, upToLoop_mono (fun {e good _ _} h => ?_) h⟩
    cases good with
    | false =>
      rw [Bool.not_false, sendFile_failed]
      exact h
    | true => exact runs_of_sendFile h

/-- The root directory opens, and reading it never gets anywhere. -/
theorem directory_download_never_ends :
    TcpServer.parseGetImage (ascii "GET_IMAGE /\n") = ascii "/" ∧
      ∀ (fuel : ℕ) (k : Socket), (handleGetImage fuel (ascii "/")).feed World.answer (fun _ => .ok)
        (Reference.world Reference.emptyFs, k) = some none := by
  refine ⟨by decide, fun fuel k => ?_⟩
  have hnode : (Reference.world Reference.emptyFs).fs.node (.dir 0) = .dir 0 := rfl
  rw [handleGetImage_eq, upToLoop]
  exact sendFile_dir hnode fuel 0 _ _

end IFStream

end CctvServer
