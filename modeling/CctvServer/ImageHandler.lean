import CctvServer.EndianUtils
import CctvServer.Environment

namespace CctvServer

variable {P : Platform}

/-- A `std::ofstream`: its file, where the next bytes go there, the bytes that wait in
its buffer and its state. -/
structure OFStream where
  ino : ℕ
  pos : ℕ
  buffer : Bytes
  bad : Bool
  deriving DecidableEq, Repr

namespace OFStream

/-- The buffer and the bytes behind it go to the file. A buffer that could not be
emptied stays as it is. -/
def flush (ofs : OFStream) (b : Bytes) : Server P OFStream := do
  let n ← sys (.write ofs.ino ofs.pos (ofs.buffer ++ b))
  if n = (ofs.buffer ++ b).length then return ⟨ofs.ino, ofs.pos + n, [], ofs.bad⟩
  else return ⟨ofs.ino, ofs.pos + n, ofs.buffer, true⟩

/-- `ofs.write`; a stream that has failed takes nothing any more. -/
def write (ofs : OFStream) (b : Bytes) : Server P OFStream :=
  if ofs.bad then return ofs
  else if P.flushes ofs.buffer.length b.length then ofs.flush b
  else return ⟨ofs.ino, ofs.pos, ofs.buffer ++ b, false⟩

def drain (ofs : OFStream) : Server P OFStream :=
  if ofs.buffer = [] then return ofs else ofs.flush []

/-- `ofs.close`, which empties the buffer whatever the state. -/
def close (ofs : OFStream) : Server P OFStream := do
  let ofs ← ofs.drain
  let ok ← sys (.closeWrite ofs.ino)
  return ⟨ofs.ino, ofs.pos, ofs.buffer, ofs.bad || !ok⟩

end OFStream

namespace ImageHandler

def images : Bytes := ascii "images"

def fullPath (filename : Bytes) : Bytes := ascii "images/" ++ filename

def uploadError (code : ℕ) (message : String) : Bytes :=
  ascii "\x7b\"status\":\"error\",\"code\":" ++ decimal code ++
    ascii (",\"message\":\"" ++ message ++ "\"\x7d")

def uploadSuccess (path : Bytes) : Bytes :=
  ascii ("\x7b\"status\":\"success\",\"code\":200,\"message\":\"Image uploaded successfully\"," ++
    "\"path\":\"") ++ path ++ ascii "\"\x7d"

def validUpload (filename : Bytes) (filesize : ℕ) : Bool :=
  !(filename.isEmpty || filesize == 0 || contains filename (ascii "..") ||
    contains filename [47] || contains filename [92])

/-- `std::filesystem::create_directory("images")` unless it exists. -/
def ensureImages : Server P Unit := do
  match ← sys (.fileExists images) with
  | none => .throw
  | some true => return ()
  | some false => if ← sys (.createDirectory images) then return () else .throw

def removeFile (path : Bytes) : Server P Unit := do
  if ← sys (.remove path) then return () else .throw

/-- Whether the whole file was received. Every chunk has a byte at least, so that
`filesize` is enough fuel. -/
def receive (filesize : ℕ) : ℕ → ℕ → OFStream → Server P (Bool × OFStream)
  | 0, _, ofs => return (true, ofs)
  | fuel + 1, totalBytesRead, ofs =>
      if totalBytesRead < filesize then do
        match ← sys (.sslRead (min 4096 (filesize - totalBytesRead))) with
        | none => return (false, ofs)
        | some b =>
            let ofs ← ofs.write b.1
            receive filesize fuel (totalBytesRead + b.1.length) ofs
      else return (true, ofs)

theorem receive_succ (filesize fuel total : ℕ) (ofs : OFStream) :
    receive (P := P) filesize (fuel + 1) total ofs =
      if total < filesize then .call (.sslRead (min 4096 (filesize - total))) fun r =>
        match r with
        | none => .ret (false, ofs)
        | some b => ofs.write b.1 >>= fun ofs =>
            receive filesize fuel (total + b.1.length) ofs
      else .ret (true, ofs) := rfl

def answerUpload (path : Bytes) (complete : Bool) (ofs : OFStream) : Server P Bytes := do
  if !complete then
    removeFile path
    return uploadError 500 "Read error while receiving file"
  else if ofs.bad then
    removeFile path
    return uploadError 500 "Failed to write file completely"
  else return uploadSuccess path

def storeImage (path : Bytes) (filesize : ℕ) (ino : ℕ) : Server P Bytes := do
  let (complete, ofs) ← receive filesize filesize 0 ⟨ino, 0, [], false⟩
  answerUpload path complete (← ofs.close)

theorem answerUpload_eq (path : Bytes) (complete : Bool) (ofs : OFStream) :
    answerUpload (P := P) path complete ofs =
      if !complete then
        removeFile path >>= fun _ => .ret (uploadError 500 "Read error while receiving file")
      else if ofs.bad then
        removeFile path >>= fun _ => .ret (uploadError 500 "Failed to write file completely")
      else .ret (uploadSuccess path) := rfl

theorem storeImage_eq (path : Bytes) (filesize ino : ℕ) :
    storeImage (P := P) path filesize ino = receive filesize filesize 0 ⟨ino, 0, [], false⟩ >>=
      fun x => x.2.close >>= answerUpload path x.1 := rfl

def handleImageUpload (filename : Bytes) (filesize : ℕ) : Server P Bytes := do
  ensureImages
  if !validUpload filename filesize then
    return uploadError 400 "Invalid filename or filesize"
  else match ← sys (.fileExists (fullPath filename)) with
    | none => .throw
    | some true => return uploadError 409 "File already exists"
    | some false => match ← sys (.openWrite (fullPath filename)) with
      | none => return uploadError 500 "Failed to open file for writing"
      | some ino => storeImage (fullPath filename) filesize ino

theorem handleImageUpload_eq (filename : Bytes) (filesize : ℕ) :
    handleImageUpload (P := P) filename filesize = ensureImages >>= fun _ =>
      if !validUpload filename filesize then .ret (uploadError 400 "Invalid filename or filesize")
      else .call (.fileExists (fullPath filename)) fun found =>
        match found with
        | none => .throw
        | some true => .ret (uploadError 409 "File already exists")
        | some false => .call (.openWrite (fullPath filename)) fun ino =>
            match ino with
            | none => .ret (uploadError 500 "Failed to open file for writing")
            | some ino => storeImage (fullPath filename) filesize ino := by
  unfold handleImageUpload
  refine congrArg (ensureImages >>= ·) (funext fun _ => ?_)
  refine if_congr Iff.rfl rfl ?_
  rw [Prog.perform_bind]
  refine congrArg (Prog.call _) (funext fun found => ?_)
  match found with
  | none => rfl
  | some true => rfl
  | some false => exact congrArg (Prog.call _) (funext fun ino => by cases ino <;> rfl)

def notFound : Bytes :=
  ascii "\x7b\"status\": \"error\", \"code\": 404, \"message\": \"Image not found\"\x7d"

/-- The read loop from offset `pos` on; `none` when the fuel does not suffice. A
read error sets neither the end-of-file bit nor a count: the loop never ends. -/
def sendFile (e : Entry) : ℕ → ℕ → Server P (Option Unit)
  | 0, _ => return none
  | fuel + 1, pos => do
      match ← sys (.read e pos 4096) with
      | none => return none
      | some [] => return some ()
      | some b =>
          if ← sys (.sslWrite b) then
            if b.length < 4096 then return some () else sendFile e fuel (pos + b.length)
          else return some ()

/-- What `tellg` gives as a `size_t` after `seekg(0, std::ios::end)`. -/
def fileSize (e : Entry) : Server P (Bool × ℕ) := do
  match ← sys (.seekEnd e) with
  | some n => return (← sys (.seekBeg e), n)
  | none => return (false, 2 ^ 64 - 1)

def handleGetImage (fuel : ℕ) (imagePath : Bytes) : Server P (Option Unit) := do
  match ← sys (.openRead imagePath) with
  | none =>
      let _ ← sys (.sslWrite notFound)
      return some ()
  | some e =>
      let (atStart, size) ← fileSize e
      if ← sys (.sslWrite (memory (htonll (BitVec.ofNat 64 size)))) then
        if atStart then sendFile e fuel 0 else return none
      else return some ()

section Calls

open Prog

theorem calls_flush {C : Call P → Prop} (hC : ∀ ino off b, C (.write ino off b)) (ofs : OFStream)
    (b : Bytes) : (ofs.flush (P := P) b).Calls C :=
  calls_bind (calls_perform (hC _ _ _)) fun _ => calls_ite trivial trivial

theorem calls_write {C : Call P → Prop} (hC : ∀ ino off b, C (.write ino off b)) (ofs : OFStream)
    (b : Bytes) : (ofs.write (P := P) b).Calls C :=
  calls_ite trivial (calls_ite (calls_flush hC ofs b) trivial)

theorem calls_close (ofs : OFStream) : (ofs.close (P := P)).Calls Call.OnFiles := by
  refine calls_bind ?_ fun ofs => calls_bind (calls_perform trivial) fun _ => trivial
  exact calls_ite trivial (calls_flush (fun _ _ _ => trivial) ofs [])

theorem calls_ensureImages : (ensureImages (P := P)).Calls Call.OnFiles := by
  refine calls_bind (calls_perform trivial) fun found => ?_
  match found with
  | none => trivial
  | some true => trivial
  | some false => exact calls_bind (calls_perform trivial) fun _ => calls_ite trivial trivial

theorem calls_removeFile (path : Bytes) : (removeFile (P := P) path).Calls Call.OnFiles :=
  calls_bind (calls_perform trivial) fun _ => calls_ite trivial trivial

theorem calls_finish (path : Bytes) (complete : Bool) (ofs : OFStream) :
    (ofs.close >>= answerUpload (P := P) path complete).Calls Call.OnFiles := by
  refine calls_bind (calls_close ofs) fun ofs => ?_
  rw [answerUpload_eq]
  exact calls_ite (calls_bind (calls_removeFile path) fun _ => trivial)
    (calls_ite (calls_bind (calls_removeFile path) fun _ => trivial) trivial)

theorem calls_receive (filesize fuel total : ℕ) (ofs : OFStream) :
    (receive (P := P) filesize fuel total ofs).Calls fun o => o.Within ∧ o.OffDatabase := by
  induction fuel generalizing total ofs with
  | zero => trivial
  | succ fuel ih =>
    rw [receive_succ]
    refine calls_ite ⟨⟨trivial, trivial⟩, fun b => ?_⟩ trivial
    cases b with
    | none => trivial
    | some b =>
      exact calls_bind (calls_write (fun _ _ _ => ⟨trivial, trivial⟩) _ _) fun ofs => ih _ ofs

theorem calls_handleImageUpload (filename : Bytes) (filesize : ℕ) :
    (handleImageUpload (P := P) filename filesize).Calls fun o => o.Within ∧ o.OffDatabase := by
  have hfiles : ∀ o : Call P, o.OnFiles → o.Within ∧ o.OffDatabase := fun _ h =>
    ⟨h.quiet.within, h.offDatabase⟩
  rw [handleImageUpload_eq]
  refine calls_bind (calls_ensureImages.mono hfiles) fun _ => ?_
  refine calls_ite trivial ⟨⟨trivial, trivial⟩, fun found => ?_⟩
  match found with
  | none => trivial
  | some true => trivial
  | some false =>
    refine ⟨⟨trivial, trivial⟩, fun ino => ?_⟩
    cases ino with
    | none => trivial
    | some ino =>
      refine calls_bind (calls_receive _ _ _ _) fun received => ?_
      exact (calls_finish _ received.1 received.2).mono hfiles

theorem calls_sendFile (e : Entry) (fuel pos : ℕ) :
    (sendFile (P := P) e fuel pos).Calls fun o => o.Quiet ∧ o.OffDatabase := by
  induction fuel generalizing pos with
  | zero => trivial
  | succ fuel ih =>
    refine calls_bind (calls_perform ⟨trivial, trivial⟩) fun b => ?_
    match b with
    | none => trivial
    | some [] => trivial
    | some (c :: b) =>
      exact calls_bind (calls_perform ⟨trivial, trivial⟩) fun _ =>
        calls_ite (calls_ite trivial (ih _)) trivial

theorem calls_handleGetImage (fuel : ℕ) (imagePath : Bytes) :
    (handleGetImage (P := P) fuel imagePath).Calls fun o => o.Quiet ∧ o.OffDatabase := by
  refine calls_bind (calls_perform ⟨trivial, trivial⟩) fun e => ?_
  cases e with
  | none => exact calls_bind (calls_perform ⟨trivial, trivial⟩) fun _ => trivial
  | some e =>
    have hsize : (fileSize (P := P) e).Calls fun o => o.Quiet ∧ o.OffDatabase := by
      refine calls_bind (calls_perform ⟨trivial, trivial⟩) fun n => ?_
      cases n with
      | none => trivial
      | some n => exact calls_bind (calls_perform ⟨trivial, trivial⟩) fun _ => trivial
    refine calls_bind hsize fun size => calls_bind (calls_perform ⟨trivial, trivial⟩) fun _ => ?_
    exact calls_ite (calls_ite (calls_sendFile _ _ _) trivial) trivial

end Calls

end ImageHandler

end CctvServer
