import CctvServer.Environment

namespace CctvServer

variable {P : Platform}

/-- What a reader finds at a position: file contents instead of inode numbers. -/
inductive Node
  | dir (size : ℕ)
  | file (content : Bytes)
  deriving DecidableEq

namespace Node

def size : Node → ℕ
  | dir n => n
  | file b => b.length

/-- A directory cannot be read. -/
def read (pos n : ℕ) : Node → Option Bytes
  | dir _ => none
  | file b => some ((b.drop pos).take n)

end Node

def FileSystem.node (fs : FileSystem) : Entry → Node
  | .dir n => .dir n
  | .file i => .file (fs.content i)

def FileSystem.look (fs : FileSystem) (p : Path) : Option Node := (fs.entry p).map fs.node

namespace World

theorem answer_openRead (ω : Outcome) (path : Bytes) (w : World P) (k : Socket) :
    answer ω (.openRead path) (w, k) =
      (if ω.failed || w.fs.tooLong path then none else w.fs.lookup path, w, k) := by
  simp only [answer]
  split <;> rfl

theorem answer_read (ω : Outcome) (e : Entry) (pos n : ℕ) (w : World P) (k : Socket) :
    answer ω (.read e pos n) (w, k) =
      (if ω.failed then none else (w.fs.node e).read pos n, w, k) := by
  cases e with
  | file i => rfl
  | dir m => exact congrArg (·, w, k) (ite_self _).symm

theorem answer_seekEnd (ω : Outcome) (e : Entry) (w : World P) (k : Socket) :
    answer ω (.seekEnd e) (w, k) =
      (if ω.failed then none else some (w.fs.node e).size, w, k) := by
  cases e <;> cases ω <;> rfl

theorem answer_seekBeg (ω : Outcome) (e : Entry) (s : World P × Socket) :
    answer ω (.seekBeg e) s = (!ω.failed, s) := rfl

end World

end CctvServer
