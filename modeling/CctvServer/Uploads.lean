import CctvServer.ImagePaths
import CctvServer.Monitor
import CctvServer.Reference

namespace CctvServer

open ImageHandler

variable {P : Platform}

/-- Where an upload is. While it stores, `pos` bytes are in its file, `pending` is in the
stream's buffer, and nothing more is received once it has `ended`. -/
inductive Phase
  | opening
  | storing (ino pos : ℕ) (pending : Bytes) (ended : Bool)
  | broken (ino : ℕ)
  | closed (ino total : ℕ) (bad : Bool)
  | removed

structure Upload where
  name : Bytes
  size : ℕ
  phase : Phase

/-- The calls of an upload in their order. -/
def uploadMonitor (P : Platform) : Monitor (Res (P := P)) Upload where
  admits u o := match u.phase, o with
    | .opening, .fileExists _ => True
    | .opening, .createDirectory path => path = images
    | .opening, .openWrite path => path = fullPath u.name
    | .storing _ pos pending ended, .sslRead n =>
        ended = false ∧ 0 < n ∧ pos + pending.length + n ≤ u.size
    | .storing ino pos pending _, .write ino' off b => ino' = ino ∧ off = pos ∧ b = pending
    | .storing _ pos pending ended, .closeWrite _ => pending = [] ∧ (pos < u.size → ended = true)
    | .broken _, .sslRead n => 0 < n
    | .broken ino, .write ino' _ _ => ino' = ino
    | .broken _, .closeWrite _ => True
    | .closed _ _ _, .remove path => path = fullPath u.name
    | _, _ => False
  expects _ _ _ := True
  next u o r := { u with phase := match u.phase, (⟨o, r⟩ : Event (Res (P := P))) with
    | .opening, ⟨.openWrite _, some ino⟩ => .storing ino 0 [] false
    | .storing ino pos pending _, ⟨.sslRead _, none⟩ => .storing ino pos pending true
    | .storing ino pos pending ended, ⟨.sslRead _, some b⟩ =>
        .storing ino pos (pending ++ b.1) ended
    | .storing ino pos pending ended, ⟨.write _ _ _, n⟩ =>
        if n = pending.length then .storing ino (pos + n) [] ended else .broken ino
    | .storing ino pos _ _, ⟨.closeWrite _, ok⟩ => .closed ino pos (!ok)
    | .broken ino, ⟨.closeWrite _, _⟩ => .closed ino 0 true
    | .closed _ _ _, ⟨.remove _, true⟩ => .removed
    | phase, _ => phase }

section Safe

variable {name : Bytes} {size : ℕ}

/-- The reply is success only if the whole file was received and written. -/
def Justified (u : Upload) (reply : Bytes) : Prop :=
  reply = uploadSuccess (fullPath u.name) → ∃ ino, u.phase = .closed ino u.size false

theorem justified_error (u : Upload) (code : ℕ) (message : String) :
    Justified u (uploadError code message) := by
  intro h
  have := congrArg (·[11]?) h
  simp only [uploadError, uploadSuccess, ascii_append, List.append_assoc] at this
  rw [List.getElem?_append_left (by decide), List.getElem?_append_left (by decide)] at this
  exact absurd this (by decide)

/-- Where an upload is while its stream is open. -/
def streaming (ofs : OFStream) (ended : Bool) : Phase :=
  if ofs.bad then .broken ofs.ino else .storing ofs.ino ofs.pos ofs.buffer ended

def taken (ofs : OFStream) : ℕ := ofs.pos + ofs.buffer.length

theorem streaming_bad {ofs : OFStream} (h : ofs.bad = true) (ended : Bool) :
    streaming ofs ended = .broken ofs.ino := if_pos h

theorem streaming_good {ofs : OFStream} (h : ofs.bad = false) (ended : Bool) :
    streaming ofs ended = .storing ofs.ino ofs.pos ofs.buffer ended := by
  rw [streaming, h]
  rfl

theorem next_streaming (ofs : OFStream) {n : ℕ} (b : Chunk n) :
    (uploadMonitor P).next ⟨name, size, streaming ofs false⟩ (.sslRead n) (some b) =
      ⟨name, size, streaming { ofs with buffer := ofs.buffer ++ b.1 } false⟩ := by
  obtain ⟨ino, pos, buffer, bad⟩ := ofs
  cases bad with
  | true => rfl
  | false => rfl

theorem next_lost (ofs : OFStream) (n : ℕ) :
    (uploadMonitor P).next ⟨name, size, streaming ofs false⟩ (.sslRead n) none =
      ⟨name, size, streaming ofs true⟩ := by
  obtain ⟨ino, pos, buffer, bad⟩ := ofs
  cases bad with
  | true => rfl
  | false => rfl

theorem safe_flush_upload (ofs : OFStream) (b : Bytes) (ended : Bool) :
    (ofs.flush b).Safe (uploadMonitor P)
      (fun u ofs' => u = ⟨name, size, streaming ofs' ended⟩ ∧ (ofs'.bad = false →
        ofs.bad = false ∧ ofs'.buffer = [] ∧ ofs'.pos = taken ofs + b.length))
      (fun _ => True) ⟨name, size, streaming { ofs with buffer := ofs.buffer ++ b } ended⟩ := by
  obtain ⟨ino, pos, buffer, bad⟩ := ofs
  cases bad with
  | true =>
    refine ⟨rfl, fun n _ => ?_⟩
    change Prog.Safe _ _ _ (if n = (buffer ++ b).length then _ else _) _
    split
    · exact ⟨rfl, nofun⟩
    · exact ⟨rfl, nofun⟩
  | false =>
    refine ⟨⟨rfl, rfl, rfl⟩, fun n _ => ?_⟩
    change Prog.Safe _ _ _ (if n = (buffer ++ b).length then _ else _)
      (Upload.mk name size (if n = (buffer ++ b).length then _ else _))
    split
    · rename_i hn
      refine ⟨rfl, fun _ => ⟨rfl, rfl, ?_⟩⟩
      simp [hn, taken, Nat.add_assoc]
    · exact ⟨rfl, nofun⟩

theorem safe_write_upload (ofs : OFStream) (b : Bytes) (ended : Bool) :
    (ofs.write b).Safe (uploadMonitor P)
      (fun u ofs' => u = ⟨name, size, streaming ofs' ended⟩ ∧ (ofs'.bad = false →
        ofs.bad = false ∧ taken ofs' = taken ofs + b.length))
      (fun _ => True) ⟨name, size, streaming { ofs with buffer := ofs.buffer ++ b } ended⟩ := by
  unfold OFStream.write
  split
  · rename_i hbad
    refine ⟨?_, by simp [hbad]⟩
    have hmore : ({ ofs with buffer := ofs.buffer ++ b } : OFStream).bad = true := hbad
    rw [streaming_bad hbad, streaming_bad hmore]
  · rename_i hbad
    split
    · refine (safe_flush_upload ofs b ended).mono ?_ fun _ h => h
      rintro _ ofs' ⟨rfl, hgood⟩
      refine ⟨rfl, fun h => ⟨(hgood h).1, ?_⟩⟩
      simp [taken, (hgood h).2]
    · have hgood : ofs.bad = false := by simpa using hbad
      refine ⟨?_, fun _ => ⟨hgood, by simp [taken, Nat.add_assoc]⟩⟩
      rw [hgood]

theorem safe_drain_upload (ofs : OFStream) (ended : Bool) :
    (ofs.drain).Safe (uploadMonitor P)
      (fun u ofs' => u = ⟨name, size, streaming ofs' ended⟩ ∧ (ofs'.bad = false →
        ofs.bad = false ∧ ofs'.buffer = [] ∧ ofs'.pos = taken ofs))
      (fun _ => True) ⟨name, size, streaming ofs ended⟩ := by
  unfold OFStream.drain
  split
  · rename_i hempty
    exact ⟨rfl, fun h => ⟨h, hempty, by simp [taken, hempty]⟩⟩
  · simpa only [List.append_nil, List.length_nil, Nat.add_zero] using
      safe_flush_upload ofs [] ended

theorem safe_close_upload (ofs : OFStream) (ended : Bool)
    (hall : ofs.bad = false → taken ofs < size → ended = true) :
    (ofs.close).Safe (uploadMonitor P)
      (fun u ofs' => ∃ ino total, u = ⟨name, size, .closed ino total ofs'.bad⟩ ∧
        (ofs'.bad = false → ofs.bad = false ∧ total = taken ofs))
      (fun _ => True) ⟨name, size, streaming ofs ended⟩ := by
  refine Prog.safe_bind.mpr ((safe_drain_upload ofs ended).mono ?_ fun _ h => h)
  rintro _ ofs' ⟨rfl, hgood⟩
  cases hbad : ofs'.bad with
  | true =>
    rw [streaming_bad hbad]
    exact ⟨trivial, fun ok _ => ⟨ofs'.ino, 0, by simp [uploadMonitor], by simp⟩⟩
  | false =>
    obtain ⟨hofs, hempty, hpos⟩ := hgood hbad
    rw [streaming_good hbad]
    refine ⟨⟨hempty, hpos ▸ hall hofs⟩, fun ok _ => ?_⟩
    exact ⟨ofs'.ino, ofs'.pos, by simp [uploadMonitor], fun _ => ⟨hofs, hpos⟩⟩

theorem safe_receive_upload (fuel total : ℕ) (ofs : OFStream) (hfuel : size - total ≤ fuel)
    (htotal : total ≤ size) (htaken : ofs.bad = false → taken ofs = total) :
    (receive size fuel total ofs).Safe (uploadMonitor P)
      (fun u x => u = ⟨name, size, streaming x.2 (!x.1)⟩ ∧
        (x.1 = true → x.2.bad = false → taken x.2 = size))
      (fun _ => True) ⟨name, size, streaming ofs false⟩ := by
  induction fuel generalizing total ofs with
  | zero => exact ⟨rfl, fun _ hgood => (htaken hgood).trans (by omega)⟩
  | succ fuel ih =>
    rw [receive_succ]
    split
    · rename_i hlt
      refine ⟨?_, fun r _ => ?_⟩
      · cases hbad : ofs.bad with
        | true =>
          rw [streaming_bad hbad]
          change 0 < min 4096 (size - total)
          omega
        | false =>
          rw [streaming_good hbad]
          have hofs : ofs.pos + ofs.buffer.length = total := htaken hbad
          refine ⟨rfl, by omega, ?_⟩
          dsimp only
          omega
      · cases r with
        | none =>
          rw [next_lost]
          exact ⟨rfl, nofun⟩
        | some b =>
          have hlen : 0 < b.1.length := List.length_pos_iff.mpr b.2.1
          have hle : b.1.length ≤ size - total := b.2.2.trans (min_le_right _ _)
          rw [next_streaming]
          refine Prog.safe_bind.mpr ((safe_write_upload ofs b.1 false).mono ?_ fun _ h => h)
          rintro _ ofs' ⟨rfl, hgood⟩
          refine ih (total + b.1.length) ofs' (by omega) (by omega) fun h => ?_
          obtain ⟨hofs, hofs'⟩ := hgood h
          rw [hofs', htaken hofs]
    · exact ⟨rfl, fun _ hgood => (htaken hgood).trans (by omega)⟩

theorem safe_removeFile (ino total : ℕ) (bad : Bool) (code : ℕ) (message : String) :
    Prog.Safe (uploadMonitor P) Justified (fun _ => True)
      (removeFile (fullPath name) >>= fun _ => .ret (uploadError code message))
      ⟨name, size, .closed ino total bad⟩ := by
  refine ⟨rfl, fun ok _ => ?_⟩
  cases ok with
  | true => exact justified_error _ _ _
  | false => trivial

theorem safe_storeImage_upload (ino : ℕ) :
    (storeImage (fullPath name) size ino).Safe (uploadMonitor P) Justified (fun _ => True)
      ⟨name, size, .storing ino 0 [] false⟩ := by
  refine Prog.safe_bind.mpr ((safe_receive_upload size 0 ⟨ino, 0, [], false⟩ le_rfl
    (Nat.zero_le _) fun _ => rfl).mono ?_ fun _ h => h)
  rintro _ ⟨complete, ofs⟩ ⟨rfl, hdone⟩
  dsimp only at hdone ⊢
  refine Prog.safe_bind.mpr ((safe_close_upload ofs (!complete) fun hgood hlt => ?_).mono ?_
    fun _ h => h)
  · cases complete with
    | false => rfl
    | true =>
      have := hdone rfl hgood
      omega
  rintro _ ofs' ⟨ino', total, rfl, hclosed⟩
  cases complete with
  | false => exact safe_removeFile _ _ _ _ _
  | true =>
    change Prog.Safe _ _ _ (if ofs'.bad = true then _ else _) _
    cases hbad : ofs'.bad with
    | true => exact safe_removeFile _ _ _ _ _
    | false =>
      obtain ⟨hgood, rfl⟩ := hclosed hbad
      refine fun _ => ⟨ino', ?_⟩
      dsimp only
      rw [hdone rfl hgood]

theorem safe_ensureImages :
    (ensureImages (P := P)).Safe (uploadMonitor P) (fun u _ => u = ⟨name, size, .opening⟩)
      (fun _ => True) ⟨name, size, .opening⟩ := by
  refine ⟨trivial, fun found _ => ?_⟩
  match found with
  | none => trivial
  | some true => rfl
  | some false =>
    refine ⟨rfl, fun ok _ => ?_⟩
    cases ok with
    | true => rfl
    | false => trivial

theorem safe_handleImageUpload :
    (handleImageUpload name size).Safe (uploadMonitor P) Justified (fun _ => True)
      ⟨name, size, .opening⟩ := by
  rw [handleImageUpload_eq]
  refine Prog.safe_bind.mpr (safe_ensureImages.mono ?_ fun _ h => h)
  rintro _ - rfl
  dsimp only
  split
  · exact justified_error _ _ _
  · refine ⟨trivial, fun found _ => ?_⟩
    match found with
    | none => trivial
    | some true => exact justified_error _ _ _
    | some false =>
      refine ⟨rfl, fun ino _ => ?_⟩
      cases ino with
      | none => exact justified_error _ _ _
      | some ino => exact safe_storeImage_upload ino

end Safe

/-- How many bytes a call has added to a file. -/
def wrote : Event (Res (P := P)) → ℕ
  | ⟨.write _ _ _, n⟩ => n
  | _ => 0

/-- One step of an upload, on the files and on what its connection still holds. -/
inductive UploadStep (name : Bytes) (size : ℕ) :
    FileSystem → Bytes → Phase → Event (Res (P := P)) → FileSystem → Bytes → Phase → Prop
  | pass {fs : FileSystem} {inp : Bytes} {phase : Phase} {e : Event Res} (quiet : wrote e = 0) :
      UploadStep name size fs inp phase e fs inp phase
  | mkdir {fs fs' : FileSystem} {inp : Bytes} {e : Event Res} (quiet : wrote e = 0)
      (made : fs.mkdir images = some fs') :
      UploadStep name size fs inp .opening e fs' inp .opening
  | create {fs fs' : FileSystem} {inp : Bytes} {ino : ℕ} {e : Event Res} (quiet : wrote e = 0)
      (missing : fs.lookup (fullPath name) = none)
      (opened : fs.openWrite (fullPath name) = some (ino, fs')) :
      UploadStep name size fs inp .opening e fs' inp (.storing ino 0 [] false)
  | lost {fs : FileSystem} {inp pending : Bytes} {ino pos n : ℕ} :
      UploadStep name size fs inp (.storing ino pos pending false) ⟨.sslRead n, none⟩ fs []
        (.storing ino pos pending true)
  | chunk {fs : FileSystem} {inp b pending : Bytes} {ino pos : ℕ} {e : Event Res}
      (quiet : wrote e = 0) (fits : pos + pending.length + b.length ≤ size) :
      UploadStep name size fs (b ++ inp) (.storing ino pos pending false) e fs inp
        (.storing ino pos (pending ++ b) false)
  | write {fs : FileSystem} {inp b : Bytes} {ino pos : ℕ} {ended : Bool} :
      UploadStep name size fs inp (.storing ino pos b ended) ⟨.write ino pos b, b.length⟩
        (fs.writeAt ino pos b) inp (.storing ino (pos + b.length) [] ended)
  | writeFail {fs : FileSystem} {inp b b' : Bytes} {ino pos n : ℕ} {ended : Bool}
      (failed : n ≠ b.length) :
      UploadStep name size fs inp (.storing ino pos b ended) ⟨.write ino pos b, n⟩
        (fs.writeAt ino pos b') inp (.broken ino)
  | drop {fs : FileSystem} {inp inp' : Bytes} {ino : ℕ} {e : Event Res} (quiet : wrote e = 0) :
      UploadStep name size fs inp (.broken ino) e fs inp' (.broken ino)
  | retry {fs : FileSystem} {inp b b' : Bytes} {ino off n : ℕ} :
      UploadStep name size fs inp (.broken ino) ⟨.write ino off b, n⟩ (fs.writeAt ino off b') inp
        (.broken ino)
  | close {fs : FileSystem} {inp : Bytes} {ino pos : ℕ} {ended ok : Bool} {e : Event Res}
      (quiet : wrote e = 0) (all : pos < size → ended = true) :
      UploadStep name size fs inp (.storing ino pos [] ended) e fs inp (.closed ino pos (!ok))
  | giveUp {fs : FileSystem} {inp : Bytes} {ino : ℕ} {e : Event Res} (quiet : wrote e = 0) :
      UploadStep name size fs inp (.broken ino) e fs inp (.closed ino 0 true)
  | remove {fs fs' : FileSystem} {inp : Bytes} {ino total : ℕ} {bad : Bool} {e : Event Res}
      (quiet : wrote e = 0) (removed : fs.remove (fullPath name) = some fs') :
      UploadStep name size fs inp (.closed ino total bad) e fs' inp .removed

/-- A read that delivers nothing has found nothing or ended the connection. -/
theorem answer_sslRead_none {n : ℕ} {w : Outcome} {s s' : World P} {k k' : Socket} (hn : 0 < n)
    (h : World.answer w (.sslRead n) (s, k) = (none, s', k')) :
    k'.inp = [] ∧ (w.failed = false → k.inp = []) := by
  simp only [World.answer] at h
  split at h
  · rename_i hw
    cases h
    exact ⟨rfl, by simp [hw]⟩
  · simp only [Prod.mk.injEq, Option.map_eq_none_iff] at h
    obtain ⟨hchunk, -, rfl⟩ := h
    obtain hinp | hzero := Socket.chunk_none hchunk
    · rw [hinp]
      exact ⟨List.drop_nil, fun _ => rfl⟩
    · exact absurd (Outcome.atMost_eq_zero hzero) hn.ne'

theorem uploadStep_of_admits {u : Upload} {o : Call P} {r : Res o} {w : World P} {k : Socket}
    {allowed : Call P → Outcome → Prop} {s : World P × Socket}
    (ha : (uploadMonitor P).admits u o) (hE : World.Serves allowed o (w, k) r s)
    (hnew : ∀ path ino, (⟨o, r⟩ : Event (Res (P := P))) = ⟨.openWrite path, some ino⟩ →
      w.fs.lookup path = none) :
    UploadStep u.name u.size w.fs k.inp u.phase ⟨o, r⟩ s.1.fs s.2.inp
      ((uploadMonitor P).next u o r).phase := by
  obtain ⟨ω, -, hans⟩ := hE
  obtain ⟨name, size, phase⟩ := u
  obtain ⟨s, k'⟩ := s
  -- the calls that a phase admits, each as it may turn out
  cases phase with
  | opening =>
    cases o with
    | fileExists path =>
      simp only [World.answer] at hans
      split at hans <;> cases hans <;> exact .pass rfl
    | createDirectory path =>
      obtain rfl : path = images := ha
      simp only [World.answer] at hans
      split at hans
      · cases hans
        exact .pass rfl
      · split at hans
        · rename_i fs hmk
          cases hans
          exact .mkdir rfl hmk
        · cases hans
          exact .pass rfl
    | openWrite path =>
      obtain rfl : path = fullPath name := ha
      simp only [World.answer] at hans
      split at hans
      · cases hans
        exact .pass rfl
      · split at hans
        · rename_i ino fs hopen
          cases hans
          exact .create rfl (hnew _ _ rfl) hopen
        · cases hans
          exact .pass rfl
    | _ => exact ha.elim
  | storing ino pos pending ended =>
    cases o with
    | sslRead n =>
      obtain ⟨rfl, hn, hfits⟩ := ha
      obtain ⟨rfl, hb⟩ := World.answer_sslRead hans
      cases r with
      | none =>
        rw [(answer_sslRead_none hn hans).1]
        exact .lost
      | some b =>
        rw [hb b rfl]
        exact .chunk rfl ((Nat.add_le_add_left b.2.2 _).trans hfits)
    | write ino' off b =>
      obtain ⟨rfl, rfl, rfl⟩ := ha
      obtain ⟨c, hc, -, rfl, rfl, rfl⟩ := World.answer_write hans
      change UploadStep _ _ _ _ _ _ _ _ (if c.length = b.length then _ else _)
      split
      · rename_i hall
        rw [hc.eq_of_length hall]
        exact .write
      · rename_i hpart
        exact .writeFail hpart
    | closeWrite ino' =>
      obtain ⟨rfl, hall⟩ := ha
      cases hans
      exact .close rfl hall
    | _ => exact ha.elim
  | broken ino =>
    cases o with
    | sslRead n =>
      obtain ⟨rfl, -⟩ := World.answer_sslRead hans
      exact .drop rfl
    | write ino' off b =>
      obtain rfl : ino' = ino := ha
      cases hans
      exact .retry
    | closeWrite ino' =>
      cases hans
      exact .giveUp rfl
    | _ => exact ha.elim
  | closed ino total bad =>
    cases o with
    | remove path =>
      obtain rfl : path = fullPath name := ha
      simp only [World.answer] at hans
      split at hans
      · cases hans
        exact .pass rfl
      · split at hans
        · rename_i fs hrem
          cases hans
          exact .remove rfl hrem
        · cases hans
          exact .pass rfl
    | _ => exact ha.elim
  | removed => exact ha.elim

def Phase.file : Phase → Option ℕ
  | .storing ino _ _ _ => some ino
  | .broken ino => some ino
  | .closed ino _ _ => some ino
  | _ => none

/-- What an upload has received so far is in its file or about to be written there. -/
def Progress (content payload inp : Bytes) : Phase → Prop
  | .opening => inp = payload
  | .storing _ pos pending _ => content = payload.take pos ∧ pos ≤ payload.length ∧
      pending ++ inp <+: payload.drop pos
  | .closed _ total false => content = payload.take total ∧ total ≤ payload.length
  | _ => True

/-- Every upload's file is under its path and no other upload's. -/
structure Separate {ι : Type} (fs : FileSystem) (name payload inp : ι → Bytes) (phase : ι → Phase) :
    Prop where
  named : ∀ i ino, (phase i).file = some ino → fs.lookup (fullPath (name i)) = some (.file ino)
  progress : ∀ i, Progress ((phase i).file.elim [] fs.content) (payload i) (inp i) (phase i)
  own : ∀ i j ino, (phase i).file = some ino → (phase j).file = some ino → i = j

section Separate

variable {ι : Type} [DecidableEq ι] {fs fs' : FileSystem} {name payload inp : ι → Bytes}
  {phase : ι → Phase} {i : ι} {inp' : Bytes} {phase' : Phase}

theorem Separate.move (h : Separate fs name payload inp phase)
    (hkeep : ∀ j ino, j ≠ i → (phase j).file = some ino →
      fs'.lookup (fullPath (name j)) = some (.file ino) ∧ fs'.content ino = fs.content ino)
    (hnamed : ∀ ino, phase'.file = some ino →
      fs'.lookup (fullPath (name i)) = some (.file ino))
    (hprogress : Progress (phase'.file.elim [] fs'.content) (payload i) inp' phase')
    (hown : ∀ j ino, j ≠ i → (phase j).file = some ino → phase'.file ≠ some ino) :
    Separate fs' name payload (Function.update inp i inp') (Function.update phase i phase') := by
  refine ⟨?_, fun j => ?_, unique_update (R := fun (p : Phase) ino => p.file = some ino) h.own hown⟩
  · exact (Function.forall_update_iff phase fun j p => ∀ ino, p.file = some ino →
      fs'.lookup (fullPath (name j)) = some (.file ino)).mpr
        ⟨hnamed, fun j hj ino hf => (hkeep j ino hj hf).1⟩
  · by_cases hji : j = i
    · subst hji
      rwa [Function.update_self, Function.update_self]
    · rw [Function.update_of_ne hji, Function.update_of_ne hji]
      have hp := h.progress j
      cases hf : (phase j).file with
      | none =>
        rw [hf] at hp
        exact hp
      | some ino =>
        rw [hf] at hp
        change Progress (fs'.content ino) _ _ _
        rwa [(hkeep j ino hji hf).2]

theorem take_append_pending {payload b rest : Bytes} {pos : ℕ} (ht : pos ≤ payload.length)
    (hb : b ++ rest = payload.drop pos) :
    FileSystem.splice (payload.take pos) pos b = payload.take (pos + b.length) ∧
      pos + b.length ≤ payload.length ∧ rest = payload.drop (pos + b.length) := by
  have hlen : (payload.take pos).length = pos := List.length_take_of_le ht
  have hsplice := FileSystem.splice_length (payload.take pos) b
  rw [hlen] at hsplice
  refine ⟨?_, ?_, ?_⟩
  · rw [hsplice, List.take_add, ← hb, List.take_left]
  · have := congrArg List.length hb
    simp only [List.length_append, List.length_drop] at this
    omega
  · rw [← List.drop_drop, ← hb, List.drop_left]

theorem Separate.step {size : ℕ} (h : Separate fs name payload inp phase)
    {e : Event (Res (P := P))}
    (hstep : UploadStep (name i) size fs (inp i) (phase i) e fs' inp' phase') :
    Separate fs' name payload (Function.update inp i inp') (Function.update phase i phase') := by
  have hn := h.named i
  have hp := h.progress i
  have hown : ∀ j ino, j ≠ i → (phase j).file = some ino → (phase i).file ≠ some ino :=
    fun j ino hji hj hi => hji (h.own j i ino hj hi)
  have hsame : ∀ j ino, j ≠ i → (phase j).file = some ino →
      fs.lookup (fullPath (name j)) = some (.file ino) ∧ fs.content ino = fs.content ino :=
    fun j ino _ hj => ⟨h.named j ino hj, rfl⟩
  -- new entries have new inodes
  have hextends : FileSystem.Extends fs fs' → ∀ j ino, j ≠ i → (phase j).file = some ino →
      fs'.lookup (fullPath (name j)) = some (.file ino) ∧ fs'.content ino = fs.content ino :=
    fun hext j ino _ hj => ⟨hext.lookup _ _ (h.named j ino hj),
      hext.content _ (FileSystem.lookup_ino_lt (h.named j ino hj))⟩
  -- a write reaches the file of this upload alone
  have hwrite : ∀ ino off b, (phase i).file = some ino → ∀ j ino', j ≠ i →
      (phase j).file = some ino' →
      (fs.writeAt ino off b).lookup (fullPath (name j)) = some (.file ino') ∧
        (fs.writeAt ino off b).content ino' = fs.content ino' := by
    intro ino off b hi j ino' hji hj
    have hne : ino' ≠ ino := by
      rintro rfl
      exact hown j ino' hji hj hi
    exact ⟨(fs.lookup_setContent _ _ _).trans (h.named j ino' hj), Function.update_of_ne hne _ _⟩
  generalize hx : inp i = x at hstep hp
  generalize hph : phase i = ph at hstep hn hp hown hwrite
  cases hstep with
  | pass =>
    rw [← hx, ← hph, Function.update_eq_self, Function.update_eq_self]
    exact h
  | mkdir _ hmk => exact h.move (hextends (FileSystem.mkdir_extends hmk)) nofun hp nofun
  | create _ hmissing hopen =>
    obtain ⟨hino, hlookup, hcontent, hext⟩ := FileSystem.openWrite_new hmissing hopen
    have hinp : inp' = payload i := hp
    refine h.move (hextends hext) (fun ino' hino' => ?_) ⟨?_, Nat.zero_le _, ?_⟩ ?_
    · cases hino'
      exact hlookup
    · exact hcontent
    · rw [hinp]
      exact List.prefix_rfl
    · rintro j ino' hji hj hino'
      cases hino'
      have := FileSystem.lookup_ino_lt (h.named j _ hj)
      omega
  | @lost _ pending ino pos n =>
    obtain ⟨hc, ht, hrest⟩ := hp
    refine h.move hsame hn ⟨hc, ht, ?_⟩ hown
    rw [List.append_nil]
    exact (List.prefix_append _ _).trans hrest
  | @chunk _ b pending ino pos e _ _ =>
    obtain ⟨hc, ht, hrest⟩ := hp
    refine h.move hsame hn ⟨hc, ht, ?_⟩ hown
    rwa [List.append_assoc]
  | @write _ b ino pos ended =>
    refine h.move (hwrite ino pos b rfl) (fun ino' hino' => ?_) ?_ hown
    · exact (fs.lookup_setContent _ _ _).trans (hn ino' hino')
    · obtain ⟨hc, ht, rest, hrest⟩ := hp
      rw [List.append_assoc] at hrest
      obtain ⟨h₁, h₂, h₃⟩ := take_append_pending ht hrest
      refine ⟨?_, h₂, rest, h₃⟩
      rw [← h₁, ← hc]
      exact Function.update_self _ _ _
  | @writeFail _ b b' ino pos n ended =>
    refine h.move (hwrite ino pos b' rfl) (fun ino' hino' => ?_) trivial hown
    exact (fs.lookup_setContent _ _ _).trans (hn ino' hino')
  | drop => exact h.move hsame hn trivial hown
  | @retry _ b b' ino off n =>
    refine h.move (hwrite ino off b' rfl) (fun ino' hino' => ?_) trivial hown
    exact (fs.lookup_setContent _ _ _).trans (hn ino' hino')
  | @close _ ino pos ended ok e =>
    refine h.move hsame hn ?_ hown
    cases ok with
    | true => exact ⟨hp.1, hp.2.1⟩
    | false => trivial
  | giveUp => exact h.move hsame hn trivial hown
  | @remove _ _ ino total bad e _ hrem =>
    obtain ⟨hcontent, hother⟩ := FileSystem.remove_file (hn ino rfl) hrem
    refine h.move (fun j ino' hji hj => ⟨hother _ ino' (h.named j ino' hj) ?_, ?_⟩) nofun trivial
      nofun
    · rintro rfl
      exact hown j ino' hji hj rfl
    · rw [hcontent]

end Separate

/-- An upload that opens a file finds it missing, as its check did before. -/
def opensNew {ι α : Type} (c : Clients P ι α) (_ : ι) : Event (Res (P := P)) → Bool
  | ⟨.openWrite path, some _⟩ => (c.shared.fs.lookup path).isNone
  | _ => true

section Clients

variable {ι : Type} [DecidableEq ι] {c₀ c : Clients P ι Bytes} {name : ι → Bytes} {size : ι → ℕ}

def Succeeded (c : Clients P ι Bytes) (i : ι) (name : Bytes) : Prop :=
  c.prog i = .ret (uploadSuccess (fullPath name))

/-- The file of that name exists and holds exactly the payload. -/
def Holds (fs : FileSystem) (name payload : Bytes) : Prop :=
  ∃ ino, fs.lookup (fullPath name) = some (.file ino) ∧ fs.content ino = payload

/-- As long as no upload opens a file that came into being after its own check, every
name has one success at most, and what was answered with success stays. -/
theorem uploads_keep_apart {allowed : Call P → Outcome → Prop}
    (hprog : ∀ i, c₀.prog i = handleImageUpload (name i) (size i)) (htrace : c₀.trace = [])
    (h : Config.Reach (World.Serves allowed) (fun c i e => opensNew c i e = true) c₀ c) :
    (∀ i j, Succeeded c i (name i) → Succeeded c j (name j) → cstr (name i) = cstr (name j) →
      i = j) ∧
    ∀ i, Succeeded c i (name i) → size i ≤ (c₀.loc i).inp.length ∧
      Holds c.shared.fs (name i) ((c₀.loc i).inp.take (size i)) := by
  obtain ⟨hsafe, hsame, hsep⟩ := h.monitored (uploadMonitor P) (Q := fun _ => Justified)
    (T := fun _ _ => True) (fun i => ⟨name i, size i, .opening⟩)
    (I := fun c g => (∀ i, (g i).name = name i ∧ (g i).size = size i) ∧
      Separate c.shared.fs name (fun i => (c₀.loc i).inp) (fun i => (c.loc i).inp)
        (fun i => (g i).phase)) htrace
    (fun i => by
      rw [hprog]
      exact safe_handleImageUpload)
    ⟨fun _ => ⟨rfl, rfl⟩, nofun, fun _ => rfl, nofun⟩
    (fun c g i o r s p hI ha hE hok _ => by
      obtain ⟨hsame, hsep⟩ := hI
      have hstep := uploadStep_of_admits ha hE fun path ino he => by
        cases he
        simpa [opensNew] using hok
      rw [(hsame i).1] at hstep
      refine ⟨trivial, ?_, ?_⟩
      · exact (Function.forall_update_iff g fun j u => u.name = name j ∧ u.size = size j).mpr
          ⟨hsame i, fun j _ => hsame j⟩
      · have hinp : (fun j => ((c.advance i ⟨o, r⟩ p s).loc j).inp) =
            Function.update (fun j => (c.loc j).inp) i s.2.inp :=
          Function.comp_update Socket.inp c.loc i s.2
        have hphase : (fun j => (Function.update g i ((uploadMonitor P).next (g i) o r) j).phase) =
            Function.update (fun j => (g j).phase) i ((uploadMonitor P).next (g i) o r).phase :=
          Function.comp_update Upload.phase g i _
        rw [hinp, hphase]
        exact hsep.step hstep)
  -- success is answered after the whole payload was written and closed
  have hclosed : ∀ i, Succeeded c i (name i) → ∃ ino,
      (c.ghosts (uploadMonitor P) (fun i => ⟨name i, size i, .opening⟩) i).phase =
        .closed ino (size i) false := by
    intro i hi
    have hs := hsafe i
    rw [hi, Prog.safe_ret, Justified, (hsame i).1, (hsame i).2] at hs
    exact hs rfl
  refine ⟨fun i j hi hj hname => ?_, fun i hi => ?_⟩
  · obtain ⟨ino, hino⟩ := hclosed i hi
    obtain ⟨ino', hino'⟩ := hclosed j hj
    have h₁ := hsep.named i ino (by rw [hino]; rfl)
    have h₂ := hsep.named j ino' (by rw [hino']; rfl)
    rw [FileSystem.lookup_congr (cstr_fullPath_congr hname), h₂] at h₁
    cases h₁
    exact hsep.own i j ino (by rw [hino]; rfl) (by rw [hino']; rfl)
  · obtain ⟨ino, hino⟩ := hclosed i hi
    have hp := hsep.progress i
    rw [hino] at hp
    exact ⟨hp.2, ino, hsep.named i ino (by rw [hino]; rfl), hp.1⟩

end Clients

def uploaders (a b : Bytes) : Clients .reference Bool Bytes where
  shared := Reference.world Reference.emptyFs
  loc i := ⟨if i then ascii "y" else ascii "x", []⟩
  prog i := handleImageUpload (if i then b else a) 1
  trace := []

/-- The second client checks for the file before the first creates it. -/
def overlap : List (Bool × Outcome) :=
  List.replicate 3 (false, .ok) ++ List.replicate 2 (true, .ok) ++ List.replicate 4 (false, .ok) ++
    List.replicate 4 (true, .ok)

theorem overlap_fits : (uploaders (ascii "a") (ascii "a")).Fits World.answer (fun _ _ _ => true)
    overlap = true := by decide

/-- Both uploads of one name succeed, and the first one's payload is gone. -/
theorem overlapping_upload_is_lost :
    ∃ c, Config.Reach (World.Serves World.Faultless) (fun _ _ _ => true = true)
        (uploaders (ascii "a") (ascii "a")) c ∧
      Succeeded c false (ascii "a") ∧ Succeeded c true (ascii "a") ∧
      ¬ Holds c.shared.fs (ascii "a") (ascii "x") := by
  refine ⟨_, Clients.follow_reach overlap _ overlap_fits (fun _ _ h => h) (by decide), rfl, rfl, ?_⟩
  rintro ⟨ino, hl, hc⟩
  have hlookup : ((uploaders (ascii "a") (ascii "a")).follow World.answer overlap).shared.fs.lookup
      (fullPath (ascii "a")) = some (.file 1) := by decide
  rw [hlookup] at hl
  cases hl
  exact absurd hc (by decide)

theorem apart_fits :
    (uploaders (ascii "a") (ascii "b")).Fits World.answer opensNew overlap = true := by decide

theorem apart_uploads_stay :
    ∃ c, Config.Reach (World.Serves World.Faultless) (fun c i e => opensNew c i e = true)
        (uploaders (ascii "a") (ascii "b")) c ∧
      Holds c.shared.fs (ascii "a") (ascii "x") ∧ Holds c.shared.fs (ascii "b") (ascii "y") := by
  have hreach : Config.Reach (World.Serves World.Faultless) (fun c i e => opensNew c i e = true)
      (uploaders (ascii "a") (ascii "b")) _ :=
    Clients.follow_reach overlap _ apart_fits (fun _ _ h => h) (by decide)
  have hprog : ∀ i, (uploaders (ascii "a") (ascii "b")).prog i =
      handleImageUpload (if i then ascii "b" else ascii "a") 1 := fun _ => rfl
  obtain ⟨-, hstay⟩ := uploads_keep_apart hprog rfl hreach
  exact ⟨_, hreach, (hstay false rfl).2, (hstay true rfl).2⟩

end CctvServer
