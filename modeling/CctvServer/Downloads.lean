import CctvServer.Uploads

namespace CctvServer

open ImageHandler

variable {P : Platform}

def header (n : ℕ) : Bytes := memory (htonll (BitVec.ofNat 64 n))

/-- Where a download of file `ino` is: `n` is the size that was measured, `pos` how much
of the file is sent, `b` what is read and not yet sent. -/
inductive DownloadPhase
  | start
  | missing
  | refused
  | opened (ino : ℕ)
  | sized (ino n : ℕ)
  | measured (ino n : ℕ)
  | sending (ino n pos : ℕ)
  | chunk (ino n pos : ℕ) (b : Bytes)
  | finished (n m : ℕ)

/-- The calls of a download of `path` in their order. No read gets beyond `limit`. -/
def downloadMonitor (P : Platform) (path : Bytes) (limit : ℕ) :
    Monitor (Res (P := P)) DownloadPhase where
  admits p o := match p, o with
    | .start, .openRead path' => path' = path
    | .missing, .sslWrite b => b = notFound
    | .opened ino, .seekEnd e => e = .file ino
    | .sized ino _, .seekBeg e => e = .file ino
    | .measured _ n, .sslWrite b => b = header n
    | .sending ino _ pos, .read e pos' n => e = .file ino ∧ pos' = pos ∧ n = 4096
    | .chunk _ _ _ b, .sslWrite b' => b' = b
    | _, _ => False
  expects _ o r := match (⟨o, r⟩ : Event (Res (P := P))) with
    | ⟨.openRead _, e⟩ => ∀ e', e = some e' → ∃ ino, e' = .file ino
    | ⟨.seekEnd _, n⟩ => ∃ n', n = some n'
    | ⟨.seekBeg _, ok⟩ => ok = true
    | ⟨.read _ pos _, b⟩ =>
        ∃ b', b = some b' ∧ b'.length ≤ 4096 ∧ (b' ≠ [] → pos + b'.length ≤ limit)
    | ⟨.sslWrite _, ok⟩ => ok = true
    | _ => True
  next p o r := match p, (⟨o, r⟩ : Event (Res (P := P))) with
    | .start, ⟨.openRead _, none⟩ => .missing
    | .start, ⟨.openRead _, some (.file ino)⟩ => .opened ino
    | .missing, ⟨.sslWrite _, _⟩ => .refused
    | .opened ino, ⟨.seekEnd _, some n⟩ => .sized ino n
    | .sized ino n, ⟨.seekBeg _, _⟩ => .measured ino n
    | .measured ino n, ⟨.sslWrite _, _⟩ => .sending ino n 0
    | .sending _ n pos, ⟨.read _ _ _, some []⟩ => .finished n pos
    | .sending ino n pos, ⟨.read _ _ _, some b⟩ => .chunk ino n pos b
    | .chunk ino n pos b, ⟨.sslWrite _, _⟩ =>
        if b.length < 4096 then .finished n (pos + b.length) else .sending ino n (pos + b.length)
    | p, _ => p

def Ended (p : DownloadPhase) (x : Option Unit) : Prop :=
  x = some () ∧ (p = .refused ∨ ∃ n m, p = .finished n m)

section Safe

variable {path : Bytes} {limit : ℕ}

theorem sendFile_succ (e : Entry) (fuel pos : ℕ) : sendFile (P := P) e (fuel + 1) pos =
    .call (.read e pos 4096) fun b =>
      match b with
      | none => .ret none
      | some [] => .ret (some ())
      | some b => .call (.sslWrite b) fun ok =>
          if ok then if b.length < 4096 then .ret (some ()) else sendFile e fuel (pos + b.length)
          else .ret (some ()) := by
  rw [sendFile, Prog.perform_bind]
  refine congrArg (Prog.call _) (funext fun b => ?_)
  match b with
  | none => rfl
  | some [] => rfl
  | some (c :: b) => rfl

def sendSized (e : Entry) (fuel : ℕ) (size : Bool × ℕ) : Server P (Option Unit) :=
  .call (.sslWrite (header size.2)) fun ok =>
    if ok then if size.1 then sendFile e fuel 0 else .ret none else .ret (some ())

theorem handleGetImage_eq (fuel : ℕ) (path : Bytes) : handleGetImage (P := P) fuel path =
    .call (.openRead path) fun e =>
      match e with
      | none => .call (.sslWrite notFound) fun _ => .ret (some ())
      | some e => .call (.seekEnd e) fun n =>
          match n with
          | none => sendSized e fuel (false, 2 ^ 64 - 1)
          | some n => .call (.seekBeg e) fun ok => sendSized e fuel (ok, n) := by
  rw [handleGetImage, Prog.perform_bind]
  refine congrArg (Prog.call _) (funext fun e => ?_)
  cases e with
  | none => rfl
  | some e => exact congrArg (Prog.call _) (funext fun n => by cases n <;> rfl)

/-- Every full buffer costs one unit of fuel. -/
theorem safe_sendFile (ino n fuel pos : ℕ) (hpos : pos ≤ limit)
    (hfuel : limit < pos + 4096 * fuel) :
    (sendFile (.file ino) fuel pos).Safe (downloadMonitor P path limit) Ended (fun _ => False)
      (.sending ino n pos) := by
  induction fuel generalizing pos with
  | zero => omega
  | succ fuel ih =>
    rw [sendFile_succ]
    refine ⟨⟨rfl, rfl, rfl⟩, fun b hb => ?_⟩
    obtain ⟨b, rfl, hlen, hle⟩ : ∃ b', b = some b' ∧ b'.length ≤ 4096 ∧
      (b' ≠ [] → pos + b'.length ≤ limit) := hb
    cases b with
    | nil => exact ⟨rfl, .inr ⟨n, pos, rfl⟩⟩
    | cons c b =>
      refine ⟨rfl, fun ok hok => ?_⟩
      obtain rfl : ok = true := hok
      have hle' := hle nofun
      change Prog.Safe _ _ _ (if _ then _ else _) (if _ then _ else _)
      by_cases hshort : (c :: b).length < 4096
      · rw [if_pos hshort, if_pos hshort]
        exact ⟨rfl, .inr ⟨n, _, rfl⟩⟩
      · rw [if_neg hshort, if_neg hshort]
        exact ih _ hle' (by omega)

theorem safe_handleGetImage {fuel : ℕ} (hfuel : limit < 4096 * fuel) :
    (handleGetImage fuel path).Safe (downloadMonitor P path limit) Ended (fun _ => False)
      .start := by
  refine ⟨rfl, fun e he => ?_⟩
  cases e with
  | none => exact ⟨rfl, fun _ _ => ⟨rfl, .inl rfl⟩⟩
  | some e =>
    obtain ⟨ino, rfl⟩ := he e rfl
    refine ⟨rfl, fun n hn => ?_⟩
    obtain ⟨n, rfl⟩ : ∃ n', n = some n' := hn
    refine ⟨rfl, fun ok hok => ?_⟩
    obtain rfl : ok = true := hok
    refine ⟨rfl, fun ok hok => ?_⟩
    obtain rfl : ok = true := hok
    exact safe_sendFile ino n fuel 0 (Nat.zero_le _) (by omega)

end Safe

/-- The path leads to nothing but `file`, which holds the first `k` bytes of the payload. -/
structure Partial (fs : FileSystem) (path payload : Bytes) (file : Option ℕ) (k : ℕ) : Prop where
  named : ∀ e, fs.lookup path = some e → ∃ ino, e = .file ino ∧ file = some ino
  content : ∀ ino, file = some ino → fs.content ino = payload.take k
  le : k ≤ payload.length

/-- The output of a download is the size it has measured and a beginning of the payload. -/
def Receiving (payload before : Bytes) (file : Option ℕ) (k : ℕ) (measured : ℕ → Prop)
    (out : Bytes) : DownloadPhase → Prop
  | .start => out = before
  | .missing => out = before
  | .refused => out = before ++ notFound
  | .opened ino => out = before ∧ file = some ino
  | .sized ino n => out = before ∧ file = some ino ∧ measured n ∧ n ≤ k
  | .measured ino n => out = before ∧ file = some ino ∧ measured n ∧ n ≤ k
  | .sending ino n pos => out = before ++ header n ++ payload.take pos ∧ file = some ino ∧
      measured n ∧ n ≤ k ∧ pos ≤ k
  | .chunk ino n pos b => out = before ++ header n ++ payload.take pos ∧ file = some ino ∧
      measured n ∧ n ≤ k ∧ pos + b.length ≤ k ∧
      payload.take (pos + b.length) = payload.take pos ++ b ∧
      (b.length < 4096 → n ≤ pos + b.length)
  | .finished n m => out = before ++ header n ++ payload.take m ∧ measured n ∧ n ≤ m ∧ m ≤ k

theorem Receiving.mono {payload before out : Bytes} {file file' : Option ℕ} {k k' : ℕ}
    {measured measured' : ℕ → Prop} {p : DownloadPhase}
    (h : Receiving payload before file k measured out p) (hk : k ≤ k')
    (hfile : ∀ ino, file = some ino → file' = some ino) (hm : ∀ n, measured n → measured' n) :
    Receiving payload before file' k' measured' out p := by
  cases p with
  | start => exact h
  | missing => exact h
  | refused => exact h
  | opened ino => exact ⟨h.1, hfile _ h.2⟩
  | sized ino n =>
    obtain ⟨hout, hf, hn, hle⟩ := h
    exact ⟨hout, hfile _ hf, hm n hn, hle.trans hk⟩
  | measured ino n =>
    obtain ⟨hout, hf, hn, hle⟩ := h
    exact ⟨hout, hfile _ hf, hm n hn, hle.trans hk⟩
  | sending ino n pos =>
    obtain ⟨hout, hf, hn, hle, hpos⟩ := h
    exact ⟨hout, hfile _ hf, hm n hn, hle.trans hk, hpos.trans hk⟩
  | chunk ino n pos b =>
    obtain ⟨hout, hf, hn, hle, hpos, hb, hlast⟩ := h
    exact ⟨hout, hfile _ hf, hm n hn, hle.trans hk, hpos.trans hk, hb, hlast⟩
  | finished n m =>
    obtain ⟨hout, hn, hnm, hle⟩ := h
    exact ⟨hout, hm n hn, hnm, hle.trans hk⟩

/-- What a read at `pos` delivers of the first `k` bytes. -/
theorem take_append_read {payload : Bytes} {k pos : ℕ} (hk : k ≤ payload.length) (hpos : pos ≤ k) :
    let b := ((payload.take k).drop pos).take 4096
    b.length = min 4096 (k - pos) ∧ payload.take (pos + b.length) = payload.take pos ++ b := by
  intro b
  have hlen : b.length = min 4096 (k - pos) := by
    simp only [b, List.length_take, List.length_drop]
    omega
  refine ⟨hlen, ?_⟩
  rw [List.take_add, hlen]
  congr 1
  simp only [b, List.drop_take, List.take_take]

variable {path payload before : Bytes} {file : Option ℕ} {k : ℕ} {measured measured' : ℕ → Prop}

theorem Receiving.step {w : World P} {sock : Socket} {p : DownloadPhase} {o : Call P} {r : Res o}
    {s : World P × Socket} (h : Receiving payload before file k measured sock.out p)
    (hpart : Partial w.fs path payload file k)
    (ha : (downloadMonitor P path payload.length).admits p o)
    (hE : World.Serves World.Faultless o (w, sock) r s) (hm : ∀ n, measured n → measured' n)
    (hmeasure : ∀ e, (⟨o, r⟩ : Event (Res (P := P))) = ⟨.seekEnd e, some k⟩ → measured' k) :
    s.1 = w ∧ (downloadMonitor P path payload.length).expects p o r ∧
      Receiving payload before file k measured' s.2.out
        ((downloadMonitor P path payload.length).next p o r) := by
  obtain ⟨ω, hω, hans⟩ := hE
  have hok : ω.failed = false := hω
  -- one case for each point of the handler, which has one call to make there
  cases p with
  | start =>
    cases o with
    | openRead path' =>
      obtain rfl : path' = path := ha
      simp only [World.answer, hok, Bool.false_or] at hans
      split at hans
      · cases hans
        exact ⟨rfl, by rintro e ⟨⟩, h⟩
      · cases hans
        cases hl : w.fs.lookup path' with
        | none => exact ⟨rfl, by rintro e ⟨⟩, h⟩
        | some e =>
          obtain ⟨ino, rfl, hfile⟩ := hpart.named e hl
          exact ⟨rfl, fun e' he' => ⟨ino, (Option.some.inj he').symm⟩, h, hfile⟩
    | _ => exact ha.elim
  | missing =>
    cases o with
    | sslWrite b =>
      obtain rfl : b = notFound := ha
      simp only [World.answer, hok, Bool.false_eq_true, if_false] at hans
      cases hans
      have hout : sock.out = before := h
      exact ⟨rfl, rfl, congrArg (· ++ notFound) hout⟩
    | _ => exact ha.elim
  | opened ino =>
    cases o with
    | seekEnd e =>
      obtain rfl : e = .file ino := ha
      simp only [World.answer, hok, Bool.false_eq_true, if_false] at hans
      obtain ⟨hout, hf⟩ := h
      have hlen : (w.fs.content ino).length = k := by
        rw [hpart.content ino hf, List.length_take_of_le hpart.le]
      rw [hlen] at hans
      cases hans
      exact ⟨rfl, ⟨k, rfl⟩, hout, hf, hmeasure _ rfl, le_rfl⟩
    | _ => exact ha.elim
  | sized ino n =>
    cases o with
    | seekBeg e =>
      simp only [World.answer, hok, Bool.not_false] at hans
      cases hans
      obtain ⟨hout, hf, hn, hle⟩ := h
      exact ⟨rfl, rfl, hout, hf, hm n hn, hle⟩
    | _ => exact ha.elim
  | measured ino n =>
    cases o with
    | sslWrite b =>
      obtain rfl : b = header n := ha
      simp only [World.answer, hok, Bool.false_eq_true, if_false] at hans
      cases hans
      obtain ⟨hout, hf, hn, hle⟩ := h
      refine ⟨rfl, rfl, ?_, hf, hm n hn, hle, Nat.zero_le _⟩
      simp [hout]
    | _ => exact ha.elim
  | sending ino n pos =>
    cases o with
    | read e pos' n' =>
      obtain ⟨rfl, rfl, rfl⟩ := ha
      obtain ⟨hout, hf, hn, hle, hpos⟩ := h
      simp only [World.answer, hok, Bool.false_eq_true, if_false, hpart.content ino hf] at hans
      -- what is read begins at the position and ends with what is written by now
      obtain ⟨hlen, htake⟩ := take_append_read hpart.le hpos
      cases hans
      generalize ((payload.take k).drop pos').take 4096 = b at hlen htake
      have hkle := hpart.le
      refine ⟨rfl, ⟨b, rfl, by omega, fun _ => by omega⟩, ?_⟩
      cases b with
      | nil =>
        rw [List.length_nil] at hlen
        exact ⟨hout, hm n hn, by omega, hpos⟩
      | cons c b => exact ⟨hout, hf, hm n hn, hle, by omega, htake, fun _ => by omega⟩
    | _ => exact ha.elim
  | chunk ino n pos b =>
    cases o with
    | sslWrite b' =>
      obtain rfl : b' = b := ha
      simp only [World.answer, hok, Bool.false_eq_true, if_false] at hans
      cases hans
      obtain ⟨hout, hf, hn, hle, hpos, htake, hlast⟩ := h
      have hout' : sock.out ++ b' = before ++ header n ++ payload.take (pos + b'.length) := by
        rw [htake, hout, List.append_assoc _ _ b']
      refine ⟨rfl, rfl, ?_⟩
      -- a chunk that is not full is the last one
      change Receiving _ _ _ _ _ _ (if _ then _ else _)
      split
      · rename_i hshort
        exact ⟨hout', hm n hn, hlast hshort, hpos⟩
      · exact ⟨hout', hf, hm n hn, hle, hpos⟩
    | _ => exact ha.elim
  | _ => exact ha.elim

/-- The upload's file holds what has reached it, and what waits in the buffer comes next.
Without a failure all of the payload is there when the file is closed. -/
structure Storing (name input : Bytes) (size : ℕ) (fs : FileSystem) (inp : Bytes) (phase : Phase)
    (file : Option ℕ) (k : ℕ) : Prop where
  stored : Partial fs (fullPath name) (input.take size) file k
  pending : match phase with
    | .opening => file = none ∧ inp = input ∧ k = 0
    | .storing ino pos pending ended => file = some ino ∧ pos = k ∧
        pending ++ inp = input.drop k ∧ k + pending.length ≤ size ∧ (ended = true → inp = [])
    | .broken _ => False
    | _ => k = (input.take size).length

theorem Partial.move {fs fs' : FileSystem} {path payload : Bytes} {file : Option ℕ} {k : ℕ}
    (h : Partial fs path payload file k)
    (hl : ∀ e, fs'.lookup path = some e → fs.lookup path = some e) (hc : fs'.content = fs.content) :
    Partial fs' path payload file k :=
  ⟨fun e he => h.named e (hl e he), fun ino hf => hc ▸ h.content ino hf, h.le⟩

theorem Storing.step {name input : Bytes} {size : ℕ} {fs fs' : FileSystem} {inp inp' : Bytes}
    {phase phase' : Phase} {file : Option ℕ} {k : ℕ} {e : Event (Res (P := P))}
    (hname : FileName name) (h : Storing name input size fs inp phase file k)
    (hstep : UploadStep name size fs inp phase e fs' inp' phase')
    (hwrite : ∀ ino off b n, e = ⟨.write ino off b, n⟩ → n = b.length)
    (hread : ∀ n, e = ⟨.sslRead n, none⟩ → inp = []) :
    ∃ file', (∀ ino, file = some ino → file' = some ino) ∧
      Storing name input size fs' inp' phase' file' (k + wrote e) := by
  obtain ⟨hpart, hpending⟩ := h
  cases hstep with
  | pass hq =>
    rw [hq]
    exact ⟨file, fun _ => id, hpart, hpending⟩
  | mkdir hq hmk =>
    rw [hq]
    obtain ⟨rfl, hinp, hk⟩ := hpending
    refine ⟨none, nofun, ⟨fun e he => ?_, nofun, hpart.le⟩, rfl, hinp, hk⟩
    rw [lookup_mkdir_images hname hmk] at he
    exact hpart.named e he
  -- a file that is new has nothing in it
  | @create _ _ ino _ hq hmissing hopen =>
    obtain ⟨-, hlookup, hcontent, -⟩ := FileSystem.openWrite_new hmissing hopen
    obtain ⟨rfl, rfl, rfl⟩ := hpending
    rw [hq]
    refine ⟨some ino, nofun, ⟨fun e he => ?_, fun ino' hino' => ?_, Nat.zero_le _⟩, rfl, rfl, rfl,
      Nat.zero_le _, nofun⟩
    · rw [hlookup] at he
      exact ⟨ino, (Option.some.inj he).symm, rfl⟩
    · cases hino'
      rw [hcontent, List.take_zero]
  -- the connection has nothing more to deliver
  | lost =>
    obtain ⟨hf, hpos, hrest, hfits, -⟩ := hpending
    rw [hread _ rfl] at hrest
    exact ⟨file, fun _ => id, hpart, hf, hpos, hrest, hfits, fun _ => rfl⟩
  | chunk hq hfits =>
    obtain ⟨hf, rfl, hrest, -, -⟩ := hpending
    rw [hq]
    refine ⟨file, fun _ => id, hpart, hf, rfl, ?_, ?_, nofun⟩
    · rwa [List.append_assoc]
    · rwa [List.length_append, ← Nat.add_assoc]
  | @write _ b ino pos ended =>
    obtain ⟨hf, rfl, hrest, hfits, hended⟩ := hpending
    have hle := hpart.le
    rw [List.length_take] at hle
    obtain ⟨hsplice, hlen, hdrop⟩ := take_append_pending (hle.trans (min_le_right _ _)) hrest
    have hcontent : ∀ m ≤ size, (input.take size).take m = input.take m := by
      intro m hm
      rw [List.take_take, min_eq_left hm]
    refine ⟨file, fun _ => id, ⟨fun e he => ?_, fun ino' hino' => ?_, ?_⟩, hf, rfl, hdrop, hfits,
      hended⟩
    · rw [FileSystem.writeAt, FileSystem.lookup_setContent] at he
      exact hpart.named e he
    · rw [hf] at hino'
      cases hino'
      rw [FileSystem.writeAt, FileSystem.setContent_content, Function.update_self,
        hpart.content ino hf, hcontent pos (by omega), hsplice]
      exact (hcontent _ hfits).symm
    · rw [List.length_take]
      exact le_min hfits hlen
  | writeFail hfailed => exact absurd (hwrite _ _ _ _ rfl) hfailed
  | drop => exact hpending.elim
  | retry => exact hpending.elim
  | giveUp => exact hpending.elim
  -- the buffer is empty, and the payload received or the connection at its end
  | @close _ ino pos ended ok e hq hall =>
    obtain ⟨-, rfl, hrest, hfits, hended⟩ := hpending
    rw [hq]
    refine ⟨file, fun _ => id, hpart, ?_⟩
    have hle := hpart.le
    rw [List.nil_append] at hrest
    rw [List.length_take] at hle ⊢
    rcases Nat.lt_or_ge pos size with hlt | hge
    · have hlen := congrArg List.length (hrest.symm.trans (hended (hall hlt)))
      rw [List.length_drop, List.length_nil] at hlen
      omega
    · omega
  -- the name goes, the content stays for those who have the file open
  | remove hq hrem =>
    rw [hq]
    exact ⟨file, fun _ => id, hpart.move (fun _ => FileSystem.lookup_of_remove hrem)
      (FileSystem.content_of_remove hrem), hpending⟩

def Phase.Over : Phase → Prop
  | .closed _ _ _ => True
  | .removed => True
  | _ => False

theorem Storing.written_of_over {name input : Bytes} {size : ℕ} {fs : FileSystem} {inp : Bytes}
    {phase : Phase} {file : Option ℕ} {k : ℕ} (h : Storing name input size fs inp phase file k)
    (hover : phase.Over) : k = (input.take size).length := by
  cases phase with
  | closed => exact h.pending
  | removed => exact h.pending
  | _ => exact hover.elim

theorem over_next {u : Upload} {o : Call P} {r : Res o} (ha : (uploadMonitor P).admits u o)
    (h : u.phase.Over ∨ ∃ ino, o = .closeWrite ino) :
    ((uploadMonitor P).next u o r).phase.Over := by
  obtain ⟨name, size, phase⟩ := u
  rcases h with hover | ⟨ino, rfl⟩
  · cases phase with
    | closed ino total bad =>
      cases o with
      | remove path => cases r <;> trivial
      | _ => exact ha.elim
    | removed => exact ha.elim
    | _ => exact hover.elim
  · cases phase with
    | storing => trivial
    | broken => trivial
    | _ => exact ha.elim

section Clients

variable {ι : Type} [DecidableEq ι]

/-- How many bytes the upload of thread `u` has brought to its file. -/
def written (u : ι) (trace : List (ι × Event (Res (P := P)))) : ℕ :=
  (trace.map fun x => if x.1 = u then wrote x.2 else 0).sum

def Closed (u : ι) (trace : List (ι × Event (Res (P := P)))) : Prop :=
  ∃ ino ok, (u, ⟨.closeWrite ino, ok⟩) ∈ trace

/-- The download of thread `i` has measured `n` bytes after the steps `a`. -/
def Measured (trace : List (ι × Event (Res (P := P)))) (i : ι)
    (a : List (ι × Event (Res (P := P)))) (n : ℕ) : Prop :=
  ∃ e b, trace = a ++ (i, ⟨.seekEnd e, some n⟩) :: b

/-- What thread `i` has measured is what was in the file, and all once that was closed. -/
def MeasuredFile (u : ι) (payload : Bytes) (trace : List (ι × Event (Res (P := P)))) (i : ι)
    (n : ℕ) : Prop :=
  ∃ a, Measured trace i a n ∧ n = written u a ∧ (Closed u a → n = payload.length)

variable {u : ι} {trace : List (ι × Event (Res (P := P)))}

theorem written_snoc (i : ι) (e : Event (Res (P := P))) :
    written u (trace ++ [(i, e)]) = written u trace + if i = u then wrote e else 0 := by
  simp [written]

omit [DecidableEq ι] in
theorem closed_snoc {i : ι} {o : Call P} {r : Res o} (h : Closed u (trace ++ [(i, ⟨o, r⟩)])) :
    Closed u trace ∨ i = u ∧ ∃ ino, o = .closeWrite ino := by
  obtain ⟨ino, ok, hmem⟩ := h
  rcases List.mem_append.mp hmem with hmem | hmem
  · exact .inl ⟨ino, ok, hmem⟩
  · cases List.mem_singleton.mp hmem
    exact .inr ⟨rfl, ino, rfl⟩

theorem MeasuredFile.snoc {payload : Bytes} {i : ι} {n : ℕ} (h : MeasuredFile u payload trace i n)
    (x : ι × Event (Res (P := P))) : MeasuredFile u payload (trace ++ [x]) i n := by
  obtain ⟨a, ⟨e, b, rfl⟩, hn⟩ := h
  exact ⟨a, ⟨e, b ++ [x], by simp⟩, hn⟩

structure Transfers (u : ι) (name : Bytes) (size : ℕ) (c₀ c : Clients P ι (Option Unit))
    (g : ι → Upload ⊕ DownloadPhase) (phase : Phase) (file : Option ℕ) : Prop where
  upload : g u = .inl ⟨name, size, phase⟩
  storing : Storing name (c₀.loc u).inp size c.shared.fs (c.loc u).inp phase file
    (written u c.trace)
  closed : Closed u c.trace → phase.Over
  download : ∀ i, i ≠ u → ∃ p, g i = .inr p ∧ Receiving ((c₀.loc u).inp.take size) (c₀.loc i).out
    file (written u c.trace) (MeasuredFile u ((c₀.loc u).inp.take size) c.trace i) (c.loc i).out p

variable {c₀ c : Clients P ι (Option Unit)} {name : Bytes} {size : ℕ}
  {g : ι → Upload ⊕ DownloadPhase} {phase : Phase} {file : Option ℕ}

def transferMonitor (P : Platform) (name payload : Bytes) :
    Monitor (Res (P := P)) (Upload ⊕ DownloadPhase) :=
  (uploadMonitor P).sum (downloadMonitor P (fullPath name) payload.length)

theorem upload_asks_some {v : Upload} {n : ℕ} (ha : (uploadMonitor P).admits v (.sslRead n)) :
    0 < n := by
  obtain ⟨name, size, phase⟩ := v
  cases phase with
  | storing => exact ha.2.1
  | broken => exact ha
  | _ => exact ha.elim

theorem Transfers.missing (h : Transfers u name size c₀ c g phase file) {path : Bytes}
    (ha : (uploadMonitor P).admits ⟨name, size, phase⟩ (.openWrite path)) :
    c.shared.fs.lookup path = none := by
  have hopening : phase = .opening ∧ path = fullPath name := by
    cases phase with
    | opening => exact ⟨rfl, ha⟩
    | _ => exact ha.elim
  obtain ⟨rfl, rfl⟩ := hopening
  obtain ⟨rfl, -⟩ := h.storing.pending
  cases hl : c.shared.fs.lookup (fullPath name) with
  | none => rfl
  | some e =>
    obtain ⟨ino', -, hfile⟩ := h.storing.stored.named e hl
    cases hfile

theorem Transfers.step_upload (hname : FileName name)
    (h : Transfers u name size c₀ c g phase file) {o : Call P} {r : Res o} {s : World P × Socket}
    {p : Server P (Option Unit)} (ha : (uploadMonitor P).admits ⟨name, size, phase⟩ o)
    (hE : World.Serves World.Faultless o (c.shared, c.loc u) r s) :
    ∃ phase' file', Transfers u name size c₀ (c.advance u ⟨o, r⟩ p s)
      (Function.update g u (.inl ((uploadMonitor P).next ⟨name, size, phase⟩ o r))) phase'
      file' := by
  have hstep := uploadStep_of_admits ha hE fun path ino he => by
    cases he
    exact h.missing ha
  have hwrite : ∀ ino off b n, (⟨o, r⟩ : Event (Res (P := P))) = ⟨.write ino off b, n⟩ →
      n = b.length := by
    rintro ino off b n ⟨⟩
    obtain ⟨w, hw, hans⟩ := hE
    obtain ⟨c, -, hall, rfl, -⟩ := World.answer_write hans
    rw [hall hw]
  have hread : ∀ n, (⟨o, r⟩ : Event (Res (P := P))) = ⟨.sslRead n, none⟩ →
      (c.loc u).inp = [] := by
    rintro n ⟨⟩
    obtain ⟨w, hw, hans⟩ := hE
    exact (answer_sslRead_none (upload_asks_some ha) hans).2 hw
  obtain ⟨file', hfile, hstoring⟩ := h.storing.step hname hstep hwrite hread
  refine ⟨((uploadMonitor P).next ⟨name, size, phase⟩ o r).phase, file', ?_, ?_, fun hclosed => ?_,
    fun j hj => ?_⟩
  · rw [Function.update_self]
    rfl
  · rw [Config.advance_trace, written_snoc, if_pos rfl, Config.advance_loc_self]
    exact hstoring
  · exact over_next ha ((closed_snoc hclosed).imp h.closed And.right)
  · -- the downloads stay where they are, over a file that has grown
    obtain ⟨q, hgj, hrec⟩ := h.download j hj
    refine ⟨q, by rw [Function.update_of_ne hj, hgj], ?_⟩
    rw [Config.advance_loc_of_ne _ _ _ _ _ hj, Config.advance_trace, written_snoc, if_pos rfl]
    exact hrec.mono (Nat.le_add_right _ _) hfile fun _ hn => hn.snoc _

theorem Transfers.step_download {i : ι} (hi : i ≠ u) {q : DownloadPhase} (hgi : g i = .inr q)
    (h : Transfers u name size c₀ c g phase file) {o : Call P} {r : Res o} {s : World P × Socket}
    {p : Server P (Option Unit)}
    (ha : (downloadMonitor P (fullPath name) ((c₀.loc u).inp.take size).length).admits q o)
    (hE : World.Serves World.Faultless o (c.shared, c.loc i) r s) :
    (downloadMonitor P (fullPath name) ((c₀.loc u).inp.take size).length).expects q o r ∧
      Transfers u name size c₀ (c.advance i ⟨o, r⟩ p s) (Function.update g i
        (.inr ((downloadMonitor P (fullPath name) ((c₀.loc u).inp.take size).length).next q o r)))
        phase file := by
  obtain ⟨q', hq', hrec⟩ := h.download i hi
  rw [hgi] at hq'
  cases hq'
  have hmeasure : ∀ e, (⟨o, r⟩ : Event (Res (P := P))) =
      ⟨.seekEnd e, some (written u c.trace)⟩ →
      MeasuredFile u ((c₀.loc u).inp.take size) (c.trace ++ [(i, ⟨o, r⟩)]) i (written u c.trace) :=
    fun e he => ⟨c.trace, ⟨e, [], by rw [he]⟩, rfl,
      fun hclosed => h.storing.written_of_over (h.closed hclosed)⟩
  obtain ⟨hw, hexp, hnext⟩ := hrec.step h.storing.stored ha hE (fun _ hn => hn.snoc _) hmeasure
  refine ⟨hexp, ?_, ?_, fun hclosed => ?_, fun j hj => ?_⟩
  · rw [Function.update_of_ne hi.symm]
    exact h.upload
  · rw [Config.advance_trace, written_snoc, if_neg hi, Config.advance_loc_of_ne _ _ _ _ _ hi.symm,
      Config.advance_shared, hw]
    exact h.storing
  · exact h.closed ((closed_snoc hclosed).resolve_right fun hu => hi hu.1)
  · rw [Config.advance_trace, written_snoc, if_neg hi]
    by_cases hji : j = i
    · subst hji
      refine ⟨_, Function.update_self _ _ _, ?_⟩
      rw [Config.advance_loc_self]
      exact hnext
    · obtain ⟨q', hgj, hrec'⟩ := h.download j hj
      refine ⟨q', by rw [Function.update_of_ne hji, hgj], ?_⟩
      rw [Config.advance_loc_of_ne _ _ _ _ _ hji]
      exact hrec'.mono le_rfl (fun _ => id) fun _ hn => hn.snoc _

/-- Whatever the order of steps, a download refuses the request or sends the number of bytes
that were in the file when it measured it, and then a beginning of the payload at least
that long. Once the upload has closed the file, that is all of it. -/
theorem download_sends_beginning {ok : Clients P ι (Option Unit) → ι → Event (Res (P := P)) → Prop}
    {fuel : ι → ℕ} (hname : FileName name)
    (hup : c₀.prog u = handleImageUpload name size >>= fun _ => .ret (some ()))
    (hdown : ∀ i, i ≠ u → c₀.prog i = handleGetImage (fuel i) (fullPath name))
    (hfuel : ∀ i, size < 4096 * fuel i) (htrace : c₀.trace = [])
    (hnew : c₀.shared.fs.lookup (fullPath name) = none)
    (h : Config.Reach (World.Serves World.Faultless) ok c₀ c) {i : ι} (hi : i ≠ u)
    {x : Option Unit} (hx : c.prog i = .ret x) :
    x = some () ∧ ((c.loc i).out = (c₀.loc i).out ++ notFound ∨
      ∃ a n m, Measured c.trace i a n ∧ n = written u a ∧
        (Closed u a → n = ((c₀.loc u).inp.take size).length) ∧
        n ≤ m ∧ m ≤ ((c₀.loc u).inp.take size).length ∧
        (c.loc i).out = (c₀.loc i).out ++ header n ++ ((c₀.loc u).inp.take size).take m ∧
        (n = ((c₀.loc u).inp.take size).length →
          (c.loc i).out = (c₀.loc i).out ++ header n ++ (c₀.loc u).inp.take size)) := by
  obtain ⟨hsafe, phase, file, htransfers⟩ := h.monitored
    (transferMonitor P name ((c₀.loc u).inp.take size))
    (Q := fun _ g a => g.elim (fun _ => True) (Ended · a))
    (T := fun _ g => g.elim (fun _ => True) fun _ => False)
    (fun i => if i = u then .inl ⟨name, size, .opening⟩ else .inr .start)
    (I := fun c g => ∃ phase file, Transfers u name size c₀ c g phase file) htrace
    (fun i => by
      by_cases hiu : i = u
      · subst hiu
        rw [if_pos rfl, hup]
        refine Prog.Safe.sum_left (Prog.safe_bind.mpr ?_)
        exact safe_handleImageUpload.mono (fun _ _ _ => trivial) fun _ h => h
      · rw [if_neg hiu, hdown i hiu]
        refine Prog.Safe.sum_right (safe_handleGetImage ?_)
        exact lt_of_le_of_lt (List.length_take_le _ _) (hfuel i))
    ⟨.opening, none, by rw [if_pos rfl], by
      rw [htrace]
      have hnamed : ∀ e, c₀.shared.fs.lookup (fullPath name) = some e →
          ∃ ino, e = .file ino ∧ none = some ino := by simp [hnew]
      exact ⟨⟨hnamed, nofun, Nat.zero_le _⟩, rfl, rfl, rfl⟩,
      by simp [Closed, htrace],
      fun i hi => ⟨.start, by rw [if_neg hi], rfl⟩⟩
    (fun c g i o r s p hI ha hE _ _ => by
      obtain ⟨phase, file, h⟩ := hI
      by_cases hiu : i = u
      · subst hiu
        rw [h.upload] at ha ⊢
        exact ⟨trivial, h.step_upload hname ha hE⟩
      · obtain ⟨q, hgi, -⟩ := h.download i hiu
        rw [hgi] at ha ⊢
        obtain ⟨hexp, hnext⟩ := h.step_download hiu hgi ha hE (p := p)
        exact ⟨hexp, phase, file, hnext⟩)
  -- the handler is at its end, and so is the phase of its protocol
  have hend := hsafe i
  obtain ⟨q, hgi, hrec⟩ := htransfers.download i hi
  rw [hx, hgi] at hend
  obtain ⟨rfl, rfl | ⟨n, m, rfl⟩⟩ : Ended q x := hend
  · exact ⟨rfl, .inl hrec⟩
  · obtain ⟨hout, ⟨a, hmeasured, hn, hclosed⟩, hnm, hm⟩ := hrec
    have hle := hm.trans htransfers.storing.stored.le
    refine ⟨rfl, .inr ⟨a, n, m, hmeasured, hn, hclosed, hnm, hle, hout, fun hall => ?_⟩⟩
    rw [hout, List.take_of_length_le (by omega)]

end Clients

def transferClients : Clients .reference Bool (Option Unit) where
  shared := Reference.world Reference.emptyFs
  loc i := ⟨if i then [] else ascii "xy", []⟩
  prog i :=
    if i then handleGetImage 1 (fullPath (ascii "a"))
    else handleImageUpload (ascii "a") 2 >>= fun _ => .ret (some ())
  trace := []

def byteByByte (turns : List Bool) : List (Bool × Outcome) := turns.map fun i => (i, .short 1)

/-- The size is measured before the buffer is written, and the file read after it. -/
def torn : List (Bool × Outcome) :=
  byteByByte (List.replicate 4 false ++ List.replicate 4 true ++ List.replicate 3 false ++
    List.replicate 2 true ++ [false])

theorem torn_fits : transferClients.Fits World.answer (fun _ _ _ => true) torn = true := by decide

/-- The header announces nothing, and two bytes follow. -/
theorem torn_download :
    ∃ c, Config.Reach (World.Serves World.Faultless) (fun _ _ _ => true = true) transferClients c ∧
      c.prog true = .ret (some ()) ∧ c.prog false = .ret (some ()) ∧
      (c.loc true).out = header 0 ++ ascii "xy" ∧
      ¬ ((c.loc true).out = notFound ∨
        ∃ n body, (c.loc true).out = header n ++ body ∧ body.length = n ∧ body = ascii "xy") := by
  refine ⟨_, Clients.follow_reach torn _ torn_fits (fun _ _ h => h) (by decide), rfl, rfl,
    by decide, ?_⟩
  have hout : ((transferClients.follow World.answer torn).loc true).out =
      header 0 ++ ascii "xy" := by decide
  rw [hout]
  rintro (h | ⟨n, body, h, hlen, rfl⟩)
  · exact absurd h (by decide)
  · obtain rfl : n = 2 := hlen.symm
    exact absurd h (by decide)

/-- The download begins when the upload has closed its file. -/
def whole : List (Bool × Outcome) :=
  byteByByte (List.replicate 8 false ++ List.replicate 6 true)

theorem whole_fits : transferClients.Fits World.answer (fun _ _ _ => true) whole = true := by decide

theorem whole_download :
    ∃ c, Config.Reach (World.Serves World.Faultless) (fun _ _ _ => true = true) transferClients c ∧
      c.prog true = .ret (some ()) ∧ (c.loc true).out = header 2 ++ ascii "xy" ∧
      ((c.loc true).out = notFound ∨ ∃ a n m, Measured c.trace true a n ∧ n = written false a ∧
        (Closed false a → n = 2) ∧ n ≤ m ∧ m ≤ 2 ∧
        (c.loc true).out = header n ++ (ascii "xy").take m ∧
        (n = 2 → (c.loc true).out = header n ++ ascii "xy")) := by
  have hreach : Config.Reach (World.Serves World.Faultless) (fun _ _ _ => true = true)
      transferClients _ := Clients.follow_reach whole _ whole_fits (fun _ _ h => h) (by decide)
  have hname : FileName (ascii "a") := ⟨by decide, by decide, by decide, by decide⟩
  have hdown : ∀ i, i ≠ false →
      transferClients.prog i = handleGetImage 1 (fullPath (ascii "a")) := by
    intro i hi
    cases i with
    | false => exact absurd rfl hi
    | true => rfl
  obtain ⟨-, h⟩ := download_sends_beginning hname rfl hdown (fun _ => by decide) rfl (by decide)
    hreach (i := true) (by decide) rfl
  exact ⟨_, hreach, rfl, by decide, h⟩

end CctvServer
