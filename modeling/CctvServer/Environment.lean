import CctvServer.Database
import CctvServer.FileSystem
import CctvServer.Interleaving

namespace CctvServer

structure World (P : Platform) where
  fs : FileSystem
  db : Database P

/-- One TLS connection: the bytes still to arrive before it ends or fails, and
the bytes written to it. -/
structure Socket where
  inp : Bytes
  out : Bytes
  deriving DecidableEq, Repr

abbrev Chunk (n : ℕ) := {b : Bytes // b ≠ [] ∧ b.length ≤ n}

/-- The calls of the server into OpenSSL, the file system and SQLite. The first
`SSL_read` is the line reader's, the second the upload loop's. -/
inductive Call (P : Platform)
  | sslReadChar
  | sslRead (n : ℕ)
  | sslWrite (b : Bytes)
  /-- `std::cout << "[TcpServer] Received: " << cmd`. -/
  | received (cmd : Bytes)
  /-- The value of a local variable that was never written. -/
  | uninitialised
  | time
  | fileExists (path : Bytes)
  | createDirectory (path : Bytes)
  | openWrite (path : Bytes)
  | write (ino off : ℕ) (b : Bytes)
  | closeWrite (ino : ℕ)
  | remove (path : Bytes)
  | openRead (path : Bytes)
  | seekEnd (e : Entry)
  | seekBeg (e : Entry)
  | read (e : Entry) (pos n : ℕ)
  | readAll (e : Entry)
  | insertUser (email passwordHash createdAt : Bytes)
  | selectUserByEmail (email : Bytes)
  | selectUserById (id : ℤ)
  | updatePassword (passwordHash : Bytes) (id : ℤ)
  | deleteUser (id : ℤ)
  | insertHistory (date imagePath plateNumber : Bytes) (eventType : ℤ)
      (startSnapshot endSnapshot : Bytes) (speed : Option P.Speed)
  | selectHistory (f : HistoryFilter) (limit offset : ℤ)
  | deleteHistory (id : ℤ)
  | changes

variable {P : Platform}

abbrev Res : Call P → Type
  | .sslReadChar => Option UInt8
  | .sslRead n => Option (Chunk n)
  | .sslWrite _ => Bool
  | .received _ => Unit
  | .uninitialised => ℕ
  | .time => ℕ
  | .fileExists _ => Option Bool
  | .createDirectory _ => Bool
  | .openWrite _ => Option ℕ
  | .write _ _ _ => ℕ
  | .closeWrite _ => Bool
  | .remove _ => Bool
  | .openRead _ => Option Entry
  | .seekEnd _ => Option ℕ
  | .seekBeg _ => Bool
  | .read _ _ _ => Option Bytes
  | .readAll _ => Option Bytes
  | .insertUser _ _ _ => Bool
  | .selectUserByEmail _ => Option UserRow
  | .selectUserById _ => Option UserRow
  | .updatePassword _ _ => Bool
  | .deleteUser _ => Bool
  | .insertHistory _ _ _ _ _ _ _ => Bool
  | .selectHistory _ _ _ => List (HistoryRow P)
  | .deleteHistory _ => Bool
  | .changes => ℕ

def Call.OffStream : Call P → Prop
  | .sslReadChar | .sslRead _ | .sslWrite _ | .received _ => False
  | _ => True

/-- What commands other than ADD_HISTORY may call. -/
def Call.KeepsHistory : Call P → Prop
  | .sslReadChar | .sslRead _ | .sslWrite _ | .received _ | .insertHistory _ _ _ _ _ _ _
  | .deleteHistory _ => False
  | _ => True

theorem Call.KeepsHistory.offStream {o : Call P} (h : o.KeepsHistory) : o.OffStream := by
  cases o <;> first | exact h | trivial

def Call.SparesHistory : Call P → Prop
  | .selectHistory _ _ _ => False
  | o => o.KeepsHistory

theorem Call.SparesHistory.keeps {o : Call P} (h : o.SparesHistory) : o.KeepsHistory := by
  cases o <;> first | exact h | trivial

def Call.Quiet : Call P → Prop
  | .sslReadChar | .sslRead _ | .received _ => False
  | _ => True

def Call.Within : Call P → Prop
  | .received _ => False
  | _ => True

theorem Call.Quiet.within {o : Call P} (h : o.Quiet) : o.Within := by
  cases o <;> first | exact h | trivial

theorem Call.OffStream.quiet {o : Call P} (h : o.OffStream) : o.Quiet := by
  cases o <;> first | exact h | trivial

def Call.OnFiles : Call P → Prop
  | .fileExists _ | .createDirectory _ | .openWrite _ | .write _ _ _ | .closeWrite _ | .remove _
  | .openRead _ | .seekEnd _ | .seekBeg _ | .read _ _ _ | .readAll _ => True
  | _ => False

def Call.OffDatabase : Call P → Prop
  | .insertUser _ _ _ | .selectUserByEmail _ | .selectUserById _ | .updatePassword _ _
  | .deleteUser _ | .insertHistory _ _ _ _ _ _ _ | .selectHistory _ _ _ | .deleteHistory _
  | .changes => False
  | _ => True

theorem Call.OnFiles.quiet {o : Call P} (h : o.OnFiles) : o.Quiet := by
  cases o <;> first | exact h.elim | trivial

theorem Call.OnFiles.offDatabase {o : Call P} (h : o.OnFiles) : o.OffDatabase := by
  cases o <;> first | exact h.elim | trivial

abbrev Server (P : Platform) := Prog (Res (P := P))

abbrev sys (c : Call P) : Server P (Res c) := .perform c

/-- How a call turns out: as asked, in part or in the `n`-th admissible way, or
with an error (after `n` bytes or rows where that matters). -/
inductive Outcome
  | ok
  | short (n : ℕ)
  | fail (n : ℕ)
  deriving DecidableEq, Repr

namespace Outcome

def number : Outcome → ℕ
  | ok => 0
  | short n => n
  | fail n => n

def failed : Outcome → Bool
  | fail _ => true
  | _ => false

/-- How many of `n` requested bytes a read may deliver at most. -/
def atMost (n : ℕ) : Outcome → ℕ
  | short k => min n (max 1 k)
  | _ => n

end Outcome

def Socket.chunk (s : Socket) (n : ℕ) : Option (Chunk n) :=
  if h : s.inp.take n = [] then none
  else some ⟨s.inp.take n, h, List.length_take_le _ _⟩

def Chunk.widen {m n : ℕ} (h : m ≤ n) (c : Chunk m) : Chunk n := ⟨c.1, c.2.1, c.2.2.trans h⟩

theorem Socket.chunk_none {s : Socket} {n : ℕ} (h : s.chunk n = none) : s.inp = [] ∨ n = 0 := by
  unfold Socket.chunk at h
  split at h
  · rename_i ht
    exact (List.take_eq_nil_iff.mp ht).symm
  · cases h

theorem Socket.chunk_some {s : Socket} {n : ℕ} {c : Chunk n} (h : s.chunk n = some c) :
    c.1 = s.inp.take n := by
  unfold Socket.chunk at h
  split at h
  · cases h
  · cases h
    rfl

theorem Outcome.atMost_le (n : ℕ) (w : Outcome) : w.atMost n ≤ n := by
  cases w with
  | ok => exact le_rfl
  | short k => exact min_le_left _ _
  | fail k => exact le_rfl

theorem Outcome.atMost_eq_zero {n : ℕ} {w : Outcome} (h : w.atMost n = 0) : n = 0 := by
  cases w with
  | ok => exact h
  | short k =>
    simp only [atMost] at h
    omega
  | fail k => exact h

namespace World

/-- Answers one call. A connection that fails once delivers nothing any more; a
write that fails sends nothing; a violated constraint fails the statement it is in. -/
def answer (w : Outcome) : (c : Call P) → World P × Socket → Res c × (World P × Socket)
  | .sslReadChar, (s, k) =>
      if w.failed then (none, s, { k with inp := [] })
      else (k.inp.head?, s, { k with inp := k.inp.tail })
  | .sslRead n, (s, k) =>
      if w.failed then (none, s, { k with inp := [] })
      else ((k.chunk (w.atMost n)).map (Chunk.widen (w.atMost_le n)), s,
        { k with inp := k.inp.drop (w.atMost n) })
  | .sslWrite b, (s, k) =>
      if w.failed then (false, s, k) else (true, s, { k with out := k.out ++ b })
  | .received _, sk => ((), sk)
  | .uninitialised, sk => (w.number, sk)
  | .time, sk => (w.number, sk)
  | .fileExists path, (s, k) =>
      if w.failed || s.fs.tooLong path then (none, s, k)
      else (some (s.fs.lookup path).isSome, s, k)
  | .createDirectory path, (s, k) =>
      if w.failed then (false, s, k)
      else match s.fs.mkdir path with
        | some fs => (true, { s with fs := fs }, k)
        | none => (false, s, k)
  | .openWrite path, (s, k) =>
      if w.failed then (none, s, k)
      else match s.fs.openWrite path with
        | some (i, fs) => (some i, { s with fs := fs }, k)
        | none => (none, s, k)
  | .write ino off b, (s, k) =>
      let written := if w.failed then b.take w.number else b
      (written.length, { s with fs := s.fs.writeAt ino off written }, k)
  | .closeWrite _, sk => (!w.failed, sk)
  | .remove path, (s, k) =>
      if w.failed then (false, s, k)
      else match s.fs.remove path with
        | some fs => (true, { s with fs := fs }, k)
        | none => (false, s, k)
  | .openRead path, (s, k) =>
      if w.failed || s.fs.tooLong path then (none, s, k) else (s.fs.lookup path, s, k)
  | .seekEnd e, (s, k) =>
      if w.failed then (none, s, k)
      else match e with
        | .file i => (some (s.fs.content i).length, s, k)
        | .dir n => (some n, s, k)
  | .seekBeg _, sk => (!w.failed, sk)
  | .read e pos n, (s, k) =>
      match e with
      | .file i => (if w.failed then none else some (((s.fs.content i).drop pos).take n), s, k)
      | .dir _ => (none, s, k)
  | .readAll e, (s, k) =>
      match e with
      | .file i => (if w.failed then none else some (s.fs.content i), s, k)
      | .dir _ => (none, s, k)
  | .insertUser email passwordHash createdAt, (s, k) =>
      if w.failed then (false, { s with db := s.db.abandon w.number }, k)
      else match s.db.insertUser email passwordHash createdAt with
        | some db => (true, { s with db := db }, k)
        | none => (false, { s with db := s.db.abandon 1 }, k)
  | .selectUserByEmail email, (s, k) =>
      (if w.failed then none else s.db.users.selectByEmail email, s, k)
  | .selectUserById id, (s, k) =>
      (if w.failed then none else s.db.users.rows.find? fun r => (r.id : ℤ) = id, s, k)
  | .updatePassword passwordHash id, (s, k) =>
      if w.failed then (false, { s with db := s.db.abandon w.number }, k)
      else (true, { s with db := s.db.updatePassword passwordHash id }, k)
  | .deleteUser id, (s, k) =>
      if w.failed then (false, { s with db := s.db.abandon w.number }, k)
      else (true, { s with db := s.db.deleteUser id }, k)
  | .insertHistory date imagePath plateNumber eventType startSnapshot endSnapshot speed, (s, k) =>
      if w.failed then (false, { s with db := s.db.abandon w.number }, k)
      else
        let db := s.db.insertHistory date imagePath plateNumber eventType startSnapshot endSnapshot
          speed
        (true, { s with db := db }, k)
  | .selectHistory f limit offset, (s, k) =>
      (if w.failed then (s.db.selectHistory 0 f limit offset).take w.number
       else s.db.selectHistory w.number f limit offset, s, k)
  | .deleteHistory id, (s, k) =>
      if w.failed then (false, { s with db := s.db.abandon w.number }, k)
      else (true, { s with db := s.db.deleteHistory id }, k)
  | .changes, (s, k) => (s.db.changes, s, k)

theorem answer_inp {o : Call P} (ho : o.Quiet) (w : Outcome) (s : World P) (k : Socket) :
    (answer w o (s, k)).2.2.inp = k.inp := by
  cases o <;> first | exact ho.elim | (simp only [answer]; repeat' split) <;> rfl

/-- What is still to arrive makes no difference to a call that takes none of it. -/
theorem answer_quiet {o : Call P} (ho : o.Quiet) (w : Outcome) (s : World P) (i j out : Bytes) :
    answer w o (s, ⟨j, out⟩) = ((answer w o (s, ⟨i, out⟩)).1, (answer w o (s, ⟨i, out⟩)).2.1,
      { (answer w o (s, ⟨i, out⟩)).2.2 with inp := j }) := by
  cases o <;> first | exact ho.elim | (simp only [answer]; repeat' split) <;> rfl

theorem answer_out {o : Call P} (ho : ∀ b, o ≠ .sslWrite b) (w : Outcome) (s : World P)
    (k : Socket) : (answer w o (s, k)).2.2.out = k.out := by
  cases o <;> first | exact absurd rfl (ho _) | (simp only [answer]; repeat' split) <;> rfl

theorem answer_db {o : Call P} (ho : o.OffDatabase) (w : Outcome) (s : World P) (k : Socket) :
    (answer w o (s, k)).2.1.db = s.db := by
  cases o <;> first | exact ho.elim | (simp only [answer]; repeat' split) <;> rfl

theorem answer_sslRead {n : ℕ} {w : Outcome} {s s' : World P} {k k' : Socket}
    {r : Option (Chunk n)} (h : answer w (.sslRead n) (s, k) = (r, s', k')) :
    s' = s ∧ ∀ b, r = some b → k.inp = b.1 ++ k'.inp := by
  simp only [answer] at h
  split at h
  · cases h
    exact ⟨rfl, nofun⟩
  · simp only [Prod.mk.injEq] at h
    obtain ⟨hr, rfl, rfl⟩ := h
    refine ⟨rfl, fun b hb => ?_⟩
    rw [← hr] at hb
    obtain ⟨c, hc, rfl⟩ := Option.map_eq_some_iff.mp hb
    have hcv : (c.widen (w.atMost_le n)).1 = k.inp.take (w.atMost n) := Socket.chunk_some hc
    rw [hcv, List.take_append_drop]

/-- A beginning of what is written reaches the file, and all of it unless the write fails. -/
theorem answer_write {ino off n : ℕ} {b : Bytes} {w : Outcome} {s s' : World P} {k k' : Socket}
    (h : answer w (.write ino off b) (s, k) = (n, s', k')) :
    ∃ c, c <+: b ∧ (w.failed = false → c = b) ∧ n = c.length ∧
      s' = { s with fs := s.fs.writeAt ino off c } ∧ k' = k := by
  cases h
  refine ⟨if w.failed then b.take w.number else b, ?_, fun hw => by simp [hw], rfl, rfl, rfl⟩
  split
  · exact List.take_prefix _ _
  · exact List.prefix_rfl

theorem answer_sslWrite (w : Outcome) (b : Bytes) (s : World P) (k : Socket) :
    answer w (.sslWrite b) (s, k) =
      (!w.failed, s, if w.failed then k else { k with out := k.out ++ b }) := by
  cases w <;> rfl

/-- The server's surroundings, with the outcomes that `allowed` admits. -/
abbrev Serves (allowed : Call P → Outcome → Prop) : Env (Res (P := P)) (World P × Socket) :=
  Env.resolve answer allowed

theorem serves_mono {allowed allowed' : Call P → Outcome → Prop} {o : Call P}
    {s s' : World P × Socket} {r : Res o} (hw : ∀ o w, allowed o w → allowed' o w)
    (h : Serves allowed o s r s') : Serves allowed' o s r s' := by
  obtain ⟨w, ha, hans⟩ := h
  exact ⟨w, hw o w ha, hans⟩

/-- Before each call other clients may change the world, as far as `keeps` allows. -/
def Amid (keeps : World P → World P → Prop) (E : Env (Res (P := P)) (World P × Socket)) :
    Env (Res (P := P)) (World P × Socket) :=
  fun o s r s' => ∃ w, keeps s.1 w ∧ E o (w, s.2) r s'

/-- No call fails. The value of an unwritten variable stays arbitrary. -/
def Faultless : Call P → Outcome → Prop := fun _ w => w.failed = false

/-- A connection delivers all it has before it ends. Everything else may fail. -/
def Delivering : Call P → Outcome → Prop
  | .sslReadChar, w => w.failed = false
  | .sslRead _, w => w.failed = false
  | _, _ => True

/-- What is written to a connection is sent. Everything else may fail. -/
def Sending : Call P → Outcome → Prop
  | .sslWrite _, w => w.failed = false
  | _, _ => True

/-- The connection may fail, and opening, writing and closing a file; checking for a
file, creating a directory and removing a file may not. -/
def Uploading : Call P → Outcome → Prop
  | .fileExists _, w => w.failed = false
  | .createDirectory _, w => w.failed = false
  | .remove _, w => w.failed = false
  | _, _ => True

theorem Uploading.of_faultless (o : Call P) (w : Outcome) (h : Faultless o w) : Uploading o w := by
  cases o <;> first | exact h | trivial

theorem Sending.of_faultless (o : Call P) (w : Outcome) (h : w.failed = false) : Sending o w := by
  cases o <;> first | exact h | trivial

theorem Delivering.of_faultless (o : Call P) (w : Outcome) (h : w.failed = false) :
    Delivering o w := by
  cases o <;> first | exact h | trivial

end World

def Server.run {α : Type} (p : Server P α) (s : World P × Socket) :
    List (Event (Res (P := P))) × Option α × (World P × Socket) :=
  Prog.run World.answer .ok p [] s

theorem Server.runs {α : Type} (p : Server P α) (s : World P × Socket) {x : Option α}
    (hx : (p.run s).2.1 = x) :
    Prog.Runs (World.Serves World.Faultless) p s (p.run s).1 x (p.run s).2.2 :=
  hx ▸ Prog.run_runs p [] s (fun _ => rfl) nofun

abbrev Clients (P : Platform) (ι α : Type) := Config (Res (P := P)) (World P) Socket ι α

theorem Clients.follow_reach {ι α : Type} [DecidableEq ι] [Fintype ι]
    {good : Clients P ι α → ι → Event (Res (P := P)) → Bool} (schedule : List (ι × Outcome))
    (c : Clients P ι α) (hf : c.Fits World.answer good schedule = true)
    {allowed : Call P → Outcome → Prop} (ha : ∀ o w, w.failed = false → allowed o w)
    (hw : schedule.all (fun x => !x.2.failed) = true) :
    Config.Reach (World.Serves allowed) (fun c i e => good c i e = true) c
      (c.follow World.answer schedule) :=
  Config.follow_reach schedule c hf fun x hx o =>
    ha o x.2 (by simpa using List.all_eq_true.mp hw x hx)

end CctvServer
