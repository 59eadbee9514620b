import CctvServer.Monitor
import CctvServer.Reference
import CctvServer.TcpServer

namespace CctvServer

open TcpServer ImageHandler

/-- The name and the size of an `UPLOAD <name> <n>` line with a decimal `n ≥ 1`. -/
def uploadOf (header : Bytes) : Option (Bytes × ℕ) :=
  match isUpload header, words header with
  | true, [tag, name, size] =>
      if tag = ascii "UPLOAD" ∧ IStream.IsNumeral size ∧ 1 ≤ digitsValue size then
        some (name, digitsValue size)
      else none
  | _, _ => none

/-- A newline-terminated line, and the payload behind it if it announces one. -/
structure Request where
  header : Bytes
  payload : Bytes
  line : ∃ l, header = l ++ [10] ∧ (10 : UInt8) ∉ l
  payload_length : payload.length = ((uploadOf header).map Prod.snd).getD 0

/-- Who reads a byte: the line reader or the upload loop. -/
inductive Reader
  | line
  | payload
  deriving DecidableEq, Repr

namespace Request

def bytes (r : Request) : Bytes := r.header ++ r.payload

def reads (r : Request) : List (Reader × UInt8) :=
  r.header.map (Reader.line, ·) ++ r.payload.map (Reader.payload, ·)

def stream (rs : List Request) : Bytes := rs.flatMap bytes

def readers (rs : List Request) : List (Reader × UInt8) := rs.flatMap reads

/-- The command lines of the requests; a blank line is none. -/
def lines (rs : List Request) : List Bytes := (rs.map header).filter (· ≠ [10])

theorem readers_snd (rs : List Request) : (readers rs).map Prod.snd = stream rs := by
  induction rs with
  | nil => rfl
  | cons r rs ih =>
    simp only [readers, stream, List.flatMap_cons, List.map_append] at ih ⊢
    rw [ih]
    simp [reads, bytes, Function.comp_def]

end Request

variable {P : Platform}

/-- The bytes taken from the connection, each with its reader. -/
def reads (log : List (Event (Res (P := P)))) : List (Reader × UInt8) :=
  log.flatMap fun e => match e with
    | ⟨.sslReadChar, some c⟩ => [(.line, c)]
    | ⟨.sslRead _, some c⟩ => c.1.map (Reader.payload, ·)
    | _ => []

def dispatched (log : List (Event (Res (P := P)))) : List Bytes :=
  log.filterMap fun e => match e with
    | ⟨.received cmd, _⟩ => some cmd
    | _ => none

def currentLine (log : List (Event (Res (P := P)))) : Bytes := (dispatched log).getLastD []

def atEnd (log : List (Event (Res (P := P)))) : Prop := ⟨.sslReadChar, none⟩ ∈ log

/-- Every payload byte went to the upload loop and every header byte to the line
reader, the lines dispatched are the requests' lines in order, and all of them
when the connection was read to its end. -/
structure KeepsTo (rs : List Request) (log : List (Event (Res (P := P)))) : Prop where
  reads : reads log <+: Request.readers rs
  lines : dispatched log <+: Request.lines rs
  ended : atEnd log → CctvServer.reads log = Request.readers rs ∧
    dispatched log = Request.lines rs

/-- All command lines of the requests were dispatched, unless a GET_IMAGE came last. -/
def ServedAll (rs : List Request) (log : List (Event (Res (P := P)))) : Prop :=
  dispatched log = Request.lines rs ∨ isGetImage (currentLine log) = true

/-- A step that turns no announced payload away and lets no other line open a file. -/
def receives {ι α : Type} [DecidableEq ι] (c : Clients P ι α)
    (i : ι) : Event (Res (P := P)) → Bool
  | ⟨.received cmd, _⟩ =>
      match uploadOf cmd with
      | some (name, n) => decide (n < 2 ^ 64) && validUpload name n
      | none => true
  | ⟨.fileExists path, _⟩ =>
      path == images || (uploadOf (currentLine (c.log i))).isNone ||
        (c.shared.fs.lookup path).isNone
  | ⟨.openWrite _, ino⟩ =>
      !isUpload (currentLine (c.log i)) ||
        Option.isSome ino == (uploadOf (currentLine (c.log i))).isSome
  | _ => true

structure Position where
  ahead : List (Reader × UInt8)
  lines : List Bytes
  current : Bytes

/-- The protocol of one connection: every byte goes to its reader, the lines are
dispatched in order, and none is left at the end. -/
def streamMonitor (P : Platform) : Monitor (Res (P := P)) Position where
  admits g
    | .sslReadChar => (∀ x ∈ g.ahead.take 1, x.1 = .line) ∧ (g.ahead = [] → g.lines = [])
    | .sslRead n => ∀ x ∈ g.ahead.take n, x.1 = .payload
    | .received cmd => g.lines.head? = some cmd
    | _ => True
  expects g
    | .sslReadChar, r => r = (g.ahead.map Prod.snd).head?
    | .sslRead _, some c => c.1 <+: g.ahead.map Prod.snd
    | .sslRead n, none => g.ahead = [] ∨ n = 0
    | .received cmd, _ =>
        ∀ name n, uploadOf cmd = some (name, n) → n < 2 ^ 64 ∧ validUpload name n = true
    | .fileExists path, r => path ≠ images → (uploadOf g.current).isSome → r ≠ some true
    | .openWrite _, ino =>
        isUpload g.current → (Option.isSome ino ↔ (uploadOf g.current).isSome)
    | _, _ => True
  next g
    | .sslReadChar, _ => { g with ahead := g.ahead.tail }
    | .sslRead _, r => { g with ahead := g.ahead.drop ((r.map fun c => c.1.length).getD 0) }
    | .received cmd, _ => ⟨g.ahead, g.lines.tail, cmd⟩
    | _, _ => g

section Safe

variable {Q : Position → Option Bool → Prop} {T : Position → Prop}

theorem safe_readLine (fuel : ℕ) {acc l : Bytes} (hl : (10 : UInt8) ∉ l)
    (rest : List (Reader × UInt8)) (lines : List Bytes) (cur : Bytes) :
    (readLine fuel acc).Safe (streamMonitor P)
      (fun g x => (x = .pending ∧ fuel ≤ l.length) ∨
        (x = .line (acc ++ (l ++ [10])) ∧ g = ⟨rest, lines, cur⟩))
      (fun _ => True) ⟨(l ++ [10]).map (Reader.line, ·) ++ rest, lines, cur⟩ := by
  induction fuel generalizing acc l with
  | zero => exact .inl ⟨rfl, Nat.zero_le _⟩
  | succ fuel ih =>
    -- the newline ends the line, every other byte goes on with one unit of fuel less
    cases l with
    | nil =>
      refine ⟨⟨by simp, by simp⟩, ?_⟩
      rintro r rfl
      exact .inr ⟨by simp, rfl⟩
    | cons c l =>
      rw [List.mem_cons, not_or] at hl
      have hc : c ≠ 10 := Ne.symm hl.1
      rw [readLine_succ]
      refine ⟨⟨by simp, by simp⟩, ?_⟩
      rintro r rfl
      have hrest := @ih (acc ++ [c]) l hl.2
      rw [List.append_assoc, List.singleton_append, ← List.cons_append] at hrest
      simp only [List.cons_append, List.map_cons, List.head?_cons, if_neg hc]
      refine hrest.mono (fun g x => Or.imp_left ?_) fun _ h => h
      exact And.imp_right Nat.succ_le_succ

theorem safe_readLine_end (fuel : ℕ) (acc cur : Bytes) :
    (readLine fuel acc).Safe (streamMonitor P)
      (fun g x => (x = .pending ∨ x = .ended) ∧ g.lines = []) (fun _ => True) ⟨[], [], cur⟩ := by
  cases fuel with
  | zero => exact ⟨.inl rfl, rfl⟩
  | succ fuel =>
    refine ⟨⟨by simp, by simp⟩, ?_⟩
    rintro r rfl
    exact ⟨.inr rfl, rfl⟩

theorem safe_quiet {α : Type} {p : Server P α} {Q : Position → α → Prop} {T : Position → Prop}
    {g : Position} (hp : p.Calls Call.Quiet) (hQ : ∀ a, Q g a) (hT : T g) :
    p.Safe (streamMonitor P) Q T g := by
  refine .of_calls hp (.of_forall hQ) hT fun o ho => ?_
  cases o <;> first | exact ho.elim | exact ⟨trivial, fun _ => rfl⟩

/-- The loop takes exactly the announced bytes, however they are cut into chunks. -/
theorem safe_receive (filesize fuel total : ℕ) (ofs : OFStream) {p : Bytes}
    (hp : p.length = filesize - total) (hfuel : filesize - total ≤ fuel)
    (rest : List (Reader × UInt8)) (lines : List Bytes) (cur : Bytes) :
    (receive filesize fuel total ofs).Safe (streamMonitor P)
      (fun g x => x.1 = true ∧ g = ⟨rest, lines, cur⟩) (fun _ => True)
      ⟨p.map (Reader.payload, ·) ++ rest, lines, cur⟩ := by
  induction fuel generalizing total ofs p with
  | zero =>
    have hnil : p = [] := List.eq_nil_of_length_eq_zero (by omega)
    subst hnil
    exact ⟨rfl, rfl⟩
  | succ fuel ih =>
    rw [receive_succ]
    split
    · rename_i hlt
      refine ⟨?_, fun r hr => ?_⟩
      · intro x hx
        have hn : min 4096 (filesize - total) ≤ (p.map (Reader.payload, ·)).length := by
          rw [List.length_map]
          omega
        rw [List.take_append_of_le_length hn] at hx
        obtain ⟨c, -, rfl⟩ := List.mem_map.mp (List.mem_of_mem_take hx)
        rfl
      · cases r with
        | none =>
          rcases hr with hr | hr
          · simp only [List.append_eq_nil_iff, List.map_eq_nil_iff] at hr
            rw [hr.1, List.length_nil] at hp
            omega
          · omega
        | some b =>
          have hb : b.1.length ≤ p.length := by
            have := b.2.2
            omega
          have hpos : 0 < b.1.length := List.length_pos_iff.mpr b.2.1
          -- what comes next on the connection are payload bytes alone
          have hpre : b.1 = p.take b.1.length := by
            have hb' : b.1 <+: p ++ rest.map Prod.snd := by
              simpa [Function.comp_def] using (show b.1 <+: _ from hr)
            rw [List.prefix_iff_eq_take, List.take_append_of_le_length hb] at hb'
            exact hb'
          have hnext : (p.map (Reader.payload, ·) ++ rest).drop b.1.length =
              (p.drop b.1.length).map (Reader.payload, ·) ++ rest := by
            rw [List.drop_append_of_le_length (by simpa using hb), List.map_drop]
          have hg : (streamMonitor P).next ⟨p.map (Reader.payload, ·) ++ rest, lines, cur⟩
              (.sslRead (min 4096 (filesize - total))) (some b) =
              ⟨(p.drop b.1.length).map (Reader.payload, ·) ++ rest, lines, cur⟩ := by
            rw [← hnext]
            rfl
          rw [hg]
          refine Prog.safe_bind.mpr (safe_quiet (calls_write (fun _ _ _ => trivial) _ _)
            (fun ofs => ?_) trivial)
          exact ih (total + b.1.length) ofs (by simp; omega) (by omega)
    · rename_i hge
      have hnil : p = [] := List.eq_nil_of_length_eq_zero (by omega)
      subst hnil
      exact ⟨rfl, rfl⟩

theorem fullPath_ne_images (filename : Bytes) : fullPath filename ≠ images := by
  intro h
  have := congrArg List.length h
  simp [fullPath, images, ascii] at this

theorem safe_storeImage (path p : Bytes) (ino : ℕ) (rest : List (Reader × UInt8))
    (lines : List Bytes) (cur : Bytes) :
    (storeImage path p.length ino).Safe (streamMonitor P) (fun g _ => g = ⟨rest, lines, cur⟩)
      (fun _ => True) ⟨p.map (Reader.payload, ·) ++ rest, lines, cur⟩ := by
  refine Prog.safe_bind.mpr
    ((safe_receive _ _ 0 ⟨ino, 0, [], false⟩ rfl le_rfl rest lines cur).mono ?_ fun _ h => h)
  rintro g ⟨complete, ofs⟩ ⟨rfl, rfl⟩
  exact safe_quiet ((calls_finish path true ofs).mono fun _ h => h.quiet) (fun _ => rfl) trivial

/-- An announced upload takes its payload, whatever becomes of the file. -/
theorem safe_announced {cur name p : Bytes} (hcur : uploadOf cur = some (name, p.length))
    (hv : validUpload name p.length = true) (hup : isUpload cur = true)
    (rest : List (Reader × UInt8)) (lines : List Bytes) :
    (handleImageUpload name p.length).Safe (streamMonitor P) (fun g _ => g = ⟨rest, lines, cur⟩)
      (fun _ => True) ⟨p.map (Reader.payload, ·) ++ rest, lines, cur⟩ := by
  rw [handleImageUpload_eq, hv]
  refine Prog.safe_bind.mpr
    (safe_quiet (calls_ensureImages.mono fun _ h => h.quiet) (fun _ => ?_) trivial)
  refine ⟨trivial, fun found hfound => ?_⟩
  match found with
  | none => trivial
  | some true => exact absurd rfl (hfound (fullPath_ne_images name) (by simp [hcur]))
  | some false =>
    refine ⟨trivial, fun ino hino => ?_⟩
    cases ino with
    | none =>
      have hopen : (none : Option ℕ).isSome ↔ (uploadOf cur).isSome := hino hup
      simp [hcur] at hopen
    | some ino => exact safe_storeImage _ _ _ _ _ _

theorem safe_unannounced {cur : Bytes} (hcur : uploadOf cur = none) (hup : isUpload cur = true)
    (name : Bytes) (n : ℕ) (ahead : List (Reader × UInt8)) (lines : List Bytes) :
    (handleImageUpload name n).Safe (streamMonitor P) (fun g _ => g = ⟨ahead, lines, cur⟩)
      (fun _ => True) ⟨ahead, lines, cur⟩ := by
  rw [handleImageUpload_eq]
  refine Prog.safe_bind.mpr
    (safe_quiet (calls_ensureImages.mono fun _ h => h.quiet) (fun _ => ?_) trivial)
  split
  · exact rfl
  · refine ⟨trivial, fun found _ => ?_⟩
    match found with
    | none => trivial
    | some true => exact rfl
    | some false =>
      refine ⟨trivial, fun ino hino => ?_⟩
      cases ino with
      | none => exact rfl
      | some ino =>
        have hopen : (some ino).isSome ↔ (uploadOf cur).isSome := hino hup
        simp [hcur] at hopen

theorem parseUpload_of_uploadOf {cmd name : Bytes} {n : ℕ} (h : uploadOf cmd = some (name, n))
    (hn : n < 2 ^ 64) (garbage : ℕ) : parseUpload cmd garbage = (name, n) := by
  unfold uploadOf at h
  split at h
  · rename_i tag name' size _ hw
    split_ifs at h with hs
    simp only [Option.some.injEq, Prod.mk.injEq] at h
    obtain ⟨rfl, rfl⟩ := h
    have hsize : IStream.sizeTokens (garbage % 2 ^ 64) [size] = digitsValue size :=
      IStream.sizeTokens_numeral hs.2.1 hn
    rw [parseUpload_tokens, hw]
    exact congrArg (Prod.mk name' ·) hsize
  · cases h

theorem isUpload_of_uploadOf {cmd : Bytes} (h : (uploadOf cmd).isSome = true) :
    isUpload cmd = true := by
  unfold uploadOf at h
  split at h
  · assumption
  · cases h

theorem safe_serveUpload (r : Request) (hup : isUpload r.header = true)
    (hr : ∀ name n, uploadOf r.header = some (name, n) → n < 2 ^ 64 ∧ validUpload name n = true)
    (rest : List (Reader × UInt8)) (lines : List Bytes) :
    (serveUpload r.header).Safe (streamMonitor P) (fun g _ => g = ⟨rest, lines, r.header⟩)
      (fun _ => True) ⟨r.payload.map (Reader.payload, ·) ++ rest, lines, r.header⟩ := by
  rw [serveUpload_eq]
  refine ⟨trivial, fun garbage _ => ?_⟩
  beta_reduce
  have hlen := r.payload_length
  cases hu : uploadOf r.header with
  | none =>
    have hnil : r.payload = [] := List.eq_nil_of_length_eq_zero (by simpa [hu] using hlen)
    rw [hnil]
    split
    · exact safe_quiet (Prog.calls_bind (Prog.calls_perform trivial) fun _ => trivial)
        (fun _ => rfl) trivial
    · refine Prog.safe_bind.mpr ((safe_unannounced hu hup _ _ _ _).mono ?_ fun _ h => h)
      rintro g result rfl
      exact ⟨trivial, fun _ _ => rfl⟩
  | some u =>
    obtain ⟨name, n⟩ := u
    obtain ⟨hn, hv⟩ := hr name n hu
    have hpn : n = r.payload.length := by simpa [hu] using hlen.symm
    subst hpn
    have hne : ¬(name = [] ∨ r.payload.length = 0) := by
      rintro (h | h)
      · simp [validUpload, h] at hv
      · simp [validUpload, h] at hv
    rw [parseUpload_of_uploadOf hu hn, if_neg hne]
    refine Prog.safe_bind.mpr ((safe_announced hu hv hup _ _).mono ?_ fun _ h => h)
    rintro g result rfl
    exact ⟨trivial, fun _ _ => rfl⟩

theorem uploadOf_blank : uploadOf [10] = none := by decide

theorem payload_of_uploadOf {r : Request} (h : uploadOf r.header = none) : r.payload = [] :=
  List.eq_nil_of_length_eq_zero (by simpa [h] using r.payload_length)

theorem readers_cons (r : Request) (rs : List Request) :
    Request.readers (r :: rs) =
      r.header.map (Reader.line, ·) ++
        (r.payload.map (Reader.payload, ·) ++ Request.readers rs) := by
  simp [Request.readers, Request.reads]

/-- The server keeps to its place in the requests, one line after the other, and stops only
where they end or behind a GET_IMAGE. -/
theorem safe_handleClientSSL (fuel : ℕ) (rs : List Request) (cur : Bytes) :
    (handleClientSSL fuel).Safe (streamMonitor P)
      (fun g _ => (Request.stream rs).length < fuel → g.lines = [] ∨ isGetImage g.current = true)
      (fun _ => True) ⟨Request.readers rs, Request.lines rs, cur⟩ := by
  induction fuel generalizing rs cur with
  | zero => exact fun h => absurd h (Nat.not_lt_zero _)
  | succ fuel ih =>
    rw [handleClientSSL_succ]
    refine Prog.safe_bind.mpr ?_
    cases rs with
    | nil =>
      refine (safe_readLine_end (fuel + 1) [] cur).mono ?_ fun _ h => h
      rintro g x ⟨rfl | rfl, hlines⟩
      · exact fun _ => .inl hlines
      · exact fun _ => .inl hlines
    | cons r rs =>
      obtain ⟨l, hl, hnl⟩ := r.line
      have hlen : (Request.stream (r :: rs)).length =
          l.length + 1 + r.payload.length + (Request.stream rs).length := by
        rw [Request.stream, List.flatMap_cons, List.length_append, Request.bytes, hl,
          List.length_append, List.length_append]
        rfl
      have hnext : ∀ cur, (handleClientSSL fuel).Safe (streamMonitor P)
          (fun g _ => (Request.stream (r :: rs)).length < fuel + 1 →
            g.lines = [] ∨ isGetImage g.current = true) (fun _ => True)
          ⟨Request.readers rs, Request.lines rs, cur⟩ := fun cur =>
        (ih rs cur).mono (fun _ _ h hfuel => h (by omega)) fun _ h => h
      rw [readers_cons, hl]
      refine (safe_readLine (fuel + 1) hnl _ _ cur).mono ?_ fun _ h => h
      rintro g x (⟨rfl, hshort⟩ | ⟨rfl, rfl⟩)
      · exact fun hfuel => absurd hfuel (by omega)
      rw [List.nil_append, ← hl]
      by_cases hblank : r.header = [10]
      · -- the blank line is skipped and announces nothing
        have hlines : Request.lines (r :: rs) = Request.lines rs := by simp [Request.lines, hblank]
        have hp : r.payload = [] := payload_of_uploadOf (hblank ▸ uploadOf_blank)
        simpa only [hblank, hlines, hp, if_true, List.map_nil, List.nil_append] using hnext cur
      · have hlines : Request.lines (r :: rs) = r.header :: Request.lines rs := by
          simp [Request.lines, hblank]
        rw [hlines]
        simp only [if_neg hblank]
        refine ⟨rfl, fun _ hr => ?_⟩
        change Prog.Safe _ _ _ _ (⟨_, Request.lines rs, r.header⟩ : Position)
        by_cases hup : isUpload r.header = true
        · simp only [if_pos hup]
          refine Prog.safe_bind.mpr ((safe_serveUpload r hup hr _ _).mono ?_ fun _ h => h)
          rintro g - rfl
          exact hnext r.header
        · -- other lines announce no payload
          have hu : uploadOf r.header = none := by
            by_contra hu
            exact hup (isUpload_of_uploadOf (Option.isSome_iff_ne_none.mpr hu))
          simp only [if_neg hup, payload_of_uploadOf hu, List.map_nil, List.nil_append]
          by_cases hg : isGetImage r.header = true
          · rw [if_pos hg]
            exact safe_quiet ((calls_serveGetImage _ _).mono fun _ h => h.1)
              (fun _ _ => .inr hg) trivial
          · rw [if_neg hg]
            exact Prog.safe_bind.mpr
              (safe_quiet (calls_serveCommand _) (fun _ => hnext r.header) trivial)

end Safe

section Connections

structure InPlace (rs : List Request) (inp : Bytes) (log : List (Event (Res (P := P))))
    (g : Position) : Prop where
  inp : inp = g.ahead.map Prod.snd
  reads : reads log ++ g.ahead = Request.readers rs
  lines : dispatched log ++ g.lines = Request.lines rs
  current : g.current = currentLine log
  ended : atEnd log → g.ahead = [] ∧ g.lines = []

theorem reads_append (a b : List (Event (Res (P := P)))) : reads (a ++ b) = reads a ++ reads b := by
  simp [reads]

theorem dispatched_append (a b : List (Event (Res (P := P)))) :
    dispatched (a ++ b) = dispatched a ++ dispatched b := by
  simp [dispatched]

theorem InPlace.same_lines {rs : List Request} {inp : Bytes} {log : List (Event (Res (P := P)))}
    {g : Position} (h : InPlace rs inp log g) {e : Event (Res (P := P))}
    (he : dispatched [e] = []) : dispatched (log ++ [e]) ++ g.lines = Request.lines rs ∧
      g.current = currentLine (log ++ [e]) := by
  have hsame : dispatched (log ++ [e]) = dispatched log := by
    rw [dispatched_append, he, List.append_nil]
  refine ⟨hsame ▸ h.lines, ?_⟩
  rw [h.current, currentLine, currentLine, hsame]

theorem InPlace.quiet {rs : List Request} {inp : Bytes} {log : List (Event (Res (P := P)))}
    {g : Position} (h : InPlace rs inp log g) {o : Call P} (ho : o.Quiet) (r : Res o) :
    InPlace rs inp (log ++ [⟨o, r⟩]) g := by
  have hreads : CctvServer.reads [(⟨o, r⟩ : Event (Res (P := P)))] = [] := by
    cases o <;> first | exact ho.elim | rfl
  have hlines : dispatched [(⟨o, r⟩ : Event (Res (P := P)))] = [] := by
    cases o <;> first | exact ho.elim | rfl
  have hend : atEnd (log ++ [⟨o, r⟩]) → atEnd log := by
    intro hm
    rcases List.mem_append.mp hm with hm | hm
    · exact hm
    · cases List.mem_singleton.mp hm
      exact ho.elim
  obtain ⟨hlines, hcurrent⟩ := h.same_lines hlines
  refine ⟨h.inp, ?_, hlines, hcurrent, fun hm => h.ended (hend hm)⟩
  rw [reads_append, hreads, List.append_nil]
  exact h.reads

theorem eq_map_of_reader {l : List (Reader × UInt8)} {reader : Reader}
    (h : ∀ x ∈ l, x.1 = reader) : l = (l.map Prod.snd).map (reader, ·) := by
  induction l with
  | nil => rfl
  | cons x l ih =>
    have hx : x = (reader, x.2) := Prod.ext (h x List.mem_cons_self) rfl
    rw [List.map_cons, List.map_cons, ← hx, ← ih fun y hy => h y (List.mem_cons_of_mem _ hy)]

theorem InPlace.line {rs : List Request} {k k' : Socket} {s s' : World P}
    {log : List (Event (Res (P := P)))} {g : Position} (h : InPlace rs k.inp log g)
    (ha : (streamMonitor P).admits g .sslReadChar) {r : Res (P := P) .sslReadChar}
    (hE : World.Serves World.Delivering .sslReadChar (s, k) r (s', k')) :
    (streamMonitor P).expects g .sslReadChar r ∧
      InPlace rs k'.inp (log ++ [⟨.sslReadChar, r⟩]) ((streamMonitor P).next g .sslReadChar r) := by
  obtain ⟨w, hw, hans⟩ := hE
  obtain ⟨hreader, hlines⟩ := ha
  have hf : w.failed = false := hw
  simp only [World.answer, hf, Bool.false_eq_true, if_false, Prod.mk.injEq] at hans
  obtain ⟨rfl, rfl, rfl⟩ := hans
  have hexp : k.inp.head? = (g.ahead.map Prod.snd).head? := by rw [h.inp]
  obtain ⟨hsame, hcurrent⟩ := h.same_lines (e := ⟨.sslReadChar, k.inp.head?⟩) rfl
  refine ⟨hexp, ?_, ?_, hsame, hcurrent, ?_⟩
  · change k.inp.tail = (g.ahead.tail).map Prod.snd
    rw [h.inp, List.map_tail]
  · rw [reads_append, ← h.reads, hexp]
    change _ ++ g.ahead.tail = _
    -- the byte that is taken is the next one, and meant for the line reader
    cases hg : g.ahead with
    | nil => simp [CctvServer.reads]
    | cons x t =>
      obtain ⟨reader, c⟩ := x
      have hx : reader = .line := hreader (reader, c) (by simp [hg])
      simp [CctvServer.reads, hx]
  · intro hm
    have hnil : g.ahead = [] := by
      rcases List.mem_append.mp hm with hm | hm
      · exact (h.ended hm).1
      · have hnone : k.inp.head? = none := by
          have heq := List.mem_singleton.mp hm
          simp only [Sigma.mk.injEq, heq_eq_eq, true_and] at heq
          exact heq.symm
        rw [h.inp, List.head?_eq_none_iff, List.map_eq_nil_iff] at hnone
        exact hnone
    exact ⟨by simp [streamMonitor, hnil], hlines hnil⟩

theorem InPlace.payload {rs : List Request} {k k' : Socket} {s s' : World P} {n : ℕ}
    {log : List (Event (Res (P := P)))} {g : Position} (h : InPlace rs k.inp log g)
    (ha : (streamMonitor P).admits g (.sslRead n)) {r : Res (P := P) (.sslRead n)}
    (hE : World.Serves World.Delivering (.sslRead n) (s, k) r (s', k')) :
    (streamMonitor P).expects g (.sslRead n) r ∧
      InPlace rs k'.inp (log ++ [⟨.sslRead n, r⟩]) ((streamMonitor P).next g (.sslRead n) r) := by
  obtain ⟨w, hw, hans⟩ := hE
  have hf : w.failed = false := hw
  have hend : atEnd (log ++ [⟨.sslRead n, r⟩]) → atEnd log := by
    intro hm
    rcases List.mem_append.mp hm with hm | hm
    · exact hm
    · cases List.mem_singleton.mp hm
  obtain ⟨hsame, hcurrent⟩ := h.same_lines (e := ⟨.sslRead n, r⟩) rfl
  simp only [World.answer, hf, Bool.false_eq_true, if_false, Prod.mk.injEq] at hans
  obtain ⟨hr, rfl, rfl⟩ := hans
  cases hc : k.chunk (w.atMost n) with
  | none =>
    rw [hc] at hr
    subst hr
    have hnone : k.inp.drop (w.atMost n) = k.inp := by
      rcases Socket.chunk_none hc with hk | hn
      · rw [hk, List.drop_nil]
      · rw [hn, List.drop_zero]
    refine ⟨?_, ?_, ?_, hsame, hcurrent, fun hm => h.ended (hend hm)⟩
    · rcases Socket.chunk_none hc with hk | hn
      · exact .inl (List.map_eq_nil_iff.mp (h.inp ▸ hk))
      · exact .inr (Outcome.atMost_eq_zero hn)
    · exact hnone.trans h.inp
    · rw [reads_append, ← h.reads]
      simp [CctvServer.reads, streamMonitor]
  | some c =>
    rw [hc] at hr
    subst hr
    have hcv : c.1 = k.inp.take (w.atMost n) := Socket.chunk_some hc
    have hle : c.1.length ≤ n := c.2.2.trans (w.atMost_le n)
    have hpre : c.1 <+: g.ahead.map Prod.snd := by
      rw [hcv, h.inp]
      exact List.take_prefix _ _
    -- the bytes of the chunk are the next ones, all meant for the upload loop
    have htake : g.ahead.take c.1.length = c.1.map (Reader.payload, ·) := by
      have hmap : (g.ahead.take c.1.length).map Prod.snd = c.1 := by
        rw [List.map_take]
        exact (List.prefix_iff_eq_take.mp hpre).symm
      rw [eq_map_of_reader fun x hx => ha x (List.take_subset_take_left _ hle hx), hmap]
    refine ⟨hpre, ?_, ?_, hsame, hcurrent, fun hm => ?_⟩
    · change k.inp.drop (w.atMost n) = (g.ahead.drop c.1.length).map Prod.snd
      rw [List.map_drop, ← h.inp, hcv, List.length_take]
      rcases le_total (w.atMost n) k.inp.length with hle | hle
      · rw [min_eq_left hle]
      · rw [min_eq_right hle, List.drop_length, List.drop_eq_nil_of_le hle]
    · rw [reads_append, ← h.reads]
      change _ ++ g.ahead.drop c.1.length = _
      have hone : CctvServer.reads [(⟨.sslRead n, some (c.widen (w.atMost_le n))⟩ :
          Event (Res (P := P)))] = g.ahead.take c.1.length := by
        rw [htake]
        simp [CctvServer.reads, Chunk.widen]
      rw [show (Option.map (Chunk.widen (w.atMost_le n)) (some c)) =
        some (c.widen (w.atMost_le n)) from rfl, hone, List.append_assoc, List.take_append_drop]
    · obtain ⟨h₁, h₂⟩ := h.ended (hend hm)
      exact ⟨by simp [streamMonitor, h₁], h₂⟩

theorem InPlace.received {rs : List Request} {inp cmd : Bytes}
    {log : List (Event (Res (P := P)))} {g : Position} (h : InPlace rs inp log g)
    (ha : (streamMonitor P).admits g (.received cmd)) (r : Res (P := P) (.received cmd)) :
    InPlace rs inp (log ++ [⟨.received cmd, r⟩]) ((streamMonitor P).next g (.received cmd) r) := by
  have hhead : g.lines.head? = some cmd := ha
  obtain ⟨rest, hrest⟩ := List.head?_eq_some_iff.mp hhead
  refine ⟨h.inp, ?_, ?_, ?_, fun hm => ?_⟩
  · rw [reads_append, ← h.reads]
    simp [CctvServer.reads, streamMonitor]
  · rw [dispatched_append, ← h.lines]
    simp [dispatched, streamMonitor, hrest]
  · simp [currentLine, dispatched, streamMonitor]
  · have hm' : atEnd log := by
      rcases List.mem_append.mp hm with hm | hm
      · exact hm
      · cases List.mem_singleton.mp hm
    obtain ⟨h₁, h₂⟩ := h.ended hm'
    rw [h₂] at hrest
    cases hrest

variable {ι : Type} [DecidableEq ι]
  {c₀ c : Clients P ι (Option Bool)}

/-- Clients whose connections carry these requests, before anything is read. -/
structure Connected (fuel : ι → ℕ) (requests : ι → List Request)
    (c : Clients P ι (Option Bool)) : Prop where
  prog : ∀ i, c.prog i = handleClientSSL (fuel i)
  inp : ∀ i, (c.loc i).inp = Request.stream (requests i)
  trace : c.trace = []

theorem InPlace.step {rs : List Request} {i : ι} {g : Position} {o : Call P} {r : Res o}
    {s : World P × Socket} (h : InPlace rs (c.loc i).inp (c.log i) g)
    (ha : (streamMonitor P).admits g o)
    (hE : World.Serves World.Delivering o (c.shared, c.loc i) r s)
    (hok : receives c i ⟨o, r⟩ = true) :
    (streamMonitor P).expects g o r ∧
      InPlace rs s.2.inp (c.log i ++ [⟨o, r⟩]) ((streamMonitor P).next g o r) := by
  have hquiet : o.Quiet → InPlace rs s.2.inp (c.log i ++ [⟨o, r⟩]) g := by
    intro ho
    obtain ⟨w, -, hans⟩ := hE
    have hinp := World.answer_inp ho w c.shared (c.loc i)
    rw [hans] at hinp
    exact hinp ▸ h.quiet ho r
  cases o with
  | sslReadChar => exact h.line ha hE
  | sslRead n => exact h.payload ha hE
  | received cmd =>
    obtain ⟨w, -, hans⟩ := hE
    cases hans
    refine ⟨fun name n hu => ?_, h.received ha ()⟩
    simpa [receives, hu] using hok
  | fileExists path =>
    refine ⟨fun hpath hup => ?_, hquiet trivial⟩
    obtain ⟨w, -, hans⟩ := hE
    have hnone : c.shared.fs.lookup path = none := by
      rw [h.current, Option.isSome_iff_ne_none] at hup
      simpa [receives, hpath, hup] using hok
    simp only [World.answer] at hans
    split at hans
    · cases hans
      simp
    · cases hans
      simp [hnone]
  | openWrite path =>
    refine ⟨fun hup => ?_, hquiet trivial⟩
    rw [h.current] at hup ⊢
    simpa [receives, hup, ← Bool.eq_iff_iff] using hok
  | _ => exact ⟨trivial, hquiet trivial⟩

/-- No byte of a payload is read as part of a line, and the lines dispatched are the
requests' command lines, as long as no announced upload is turned away. A connection that
has returned dispatched them all, unless it returned from a GET_IMAGE. -/
theorem connection_keeps_to_requests {fuel : ι → ℕ} {requests : ι → List Request}
    (h₀ : Connected fuel requests c₀)
    (h : Config.Reach (World.Serves World.Delivering) (fun c i e => receives c i e = true) c₀ c)
    (i : ι) :
    KeepsTo (requests i) (c.log i) ∧
      ∀ x, c.prog i = .ret x → (Request.stream (requests i)).length < fuel i →
        ServedAll (requests i) (c.log i) := by
  obtain ⟨hsafe, -, hplace⟩ := h.monitored_each (streamMonitor P)
    (Q := fun i g _ => (Request.stream (requests i)).length < fuel i →
      g.lines = [] ∨ isGetImage g.current = true) (T := fun _ _ => True) (J := fun _ => True)
    (fun i => ⟨Request.readers (requests i), Request.lines (requests i), []⟩)
    (I := fun i log sock g => InPlace (requests i) sock.inp log g) h₀.trace
    (fun i => by
      rw [h₀.prog]
      exact safe_handleClientSSL _ _ _)
    trivial
    (fun i => by
      rw [h₀.inp]
      exact ⟨(Request.readers_snd _).symm, rfl, rfl, rfl, fun hm => by cases hm⟩)
    (fun c i o r s _ hI ha hE hok => by
      obtain ⟨hexp, hnext⟩ := hI.step ha hE hok
      exact ⟨hexp, trivial, hnext⟩)
  have hi := hplace i
  refine ⟨⟨⟨_, hi.reads⟩, ⟨_, hi.lines⟩, fun hm => ?_⟩, fun x hx hfuel => ?_⟩
  · obtain ⟨h₁, h₂⟩ := hi.ended hm
    exact ⟨by rw [← hi.reads, h₁, List.append_nil], by rw [← hi.lines, h₂, List.append_nil]⟩
  · have hend := hsafe i
    rw [hx] at hend
    rcases hend hfuel with hlines | hget
    · exact .inl (by rw [← hi.lines, hlines, List.append_nil])
    · exact .inr (hi.current ▸ hget)

end Connections

def oneClient (fuel : ℕ) (w : World P) (rs : List Request) :
    Clients P Unit (Option Bool) where
  shared := w
  loc _ := ⟨Request.stream rs, []⟩
  prog _ := handleClientSSL fuel
  trace := []

/-- A payload that reads like a command, behind a name with a slash. -/
def rejectedUpload : Request where
  header := ascii "UPLOAD a/b 10\n"
  payload := ascii "GET_FRAME\n"
  line := ⟨ascii "UPLOAD a/b 10", by decide, by decide⟩
  payload_length := by decide

def rejectedStart : Clients .reference Unit (Option Bool) :=
  oneClient 20 (Reference.world Reference.emptyFs) [rejectedUpload]

theorem rejected_fits : rejectedStart.Fits World.answer (fun _ _ _ => true)
    (List.replicate 30 ((), .ok)) = true := by decide

/-- The payload of an upload with a bad name is executed as a command. -/
theorem rejected_payload_is_dispatched :
    ∃ c, Config.Reach (World.Serves World.Delivering) (fun _ _ _ => true = true) rejectedStart c ∧
      dispatched (c.log ()) = [ascii "UPLOAD a/b 10\n", ascii "GET_FRAME\n"] ∧
      ¬ KeepsTo [rejectedUpload] (c.log ()) := by
  have hreach := Clients.follow_reach (List.replicate 30 ((), .ok)) rejectedStart rejected_fits
    World.Delivering.of_faultless (by decide)
  have hrun : dispatched ((rejectedStart.follow World.answer
      (List.replicate 30 ((), .ok))).log ()) =
      [ascii "UPLOAD a/b 10\n", ascii "GET_FRAME\n"] := by decide
  refine ⟨_, hreach, hrun, fun h => ?_⟩
  have hlines := h.lines
  rw [hrun] at hlines
  exact absurd hlines (by decide)

def acceptedUpload : Request where
  header := ascii "UPLOAD ab 10\n"
  payload := ascii "GET_FRAME\n"
  line := ⟨ascii "UPLOAD ab 10", by decide, by decide⟩
  payload_length := by decide

def pipelinedRequest : Request where
  header := ascii "GET_FRAME\n"
  payload := []
  line := ⟨ascii "GET_FRAME", by decide, by decide⟩
  payload_length := by decide

def acceptedStart : Clients .reference Unit (Option Bool) :=
  oneClient 40 (Reference.world Reference.emptyFs) [acceptedUpload, pipelinedRequest]

theorem accepted_fits : acceptedStart.Fits World.answer receives
    (List.replicate 38 ((), .short 5)) = true := by decide

/-- The same payload behind a good name, received in two chunks, and the command behind it. -/
theorem accepted_payload_is_received :
    ∃ c, Config.Reach (World.Serves World.Delivering) (fun c i e => receives c i e = true)
        acceptedStart c ∧
      dispatched (c.log ()) = [ascii "UPLOAD ab 10\n", ascii "GET_FRAME\n"] ∧
      c.prog () = .ret (some false) ∧
      KeepsTo [acceptedUpload, pipelinedRequest] (c.log ()) ∧
      ServedAll [acceptedUpload, pipelinedRequest] (c.log ()) := by
  have hreach := Clients.follow_reach (List.replicate 38 ((), .short 5)) acceptedStart accepted_fits
    World.Delivering.of_faultless (by decide)
  have hend : (acceptedStart.follow World.answer (List.replicate 38 ((), .short 5))).prog () =
      .ret (some false) := rfl
  obtain ⟨hkeeps, hserved⟩ := connection_keeps_to_requests
    (⟨fun _ => rfl, fun _ => rfl, rfl⟩ :
      Connected (fun _ => 40) (fun _ => [acceptedUpload, pipelinedRequest]) _) hreach ()
  exact ⟨_, hreach, by decide, hend, hkeeps, hserved _ hend (by decide)⟩

end CctvServer
