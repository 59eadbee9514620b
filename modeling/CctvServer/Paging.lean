import CctvServer.PageOrders

namespace CctvServer

open CommandHandler HistoryRepository IStream

variable {P : Platform}

namespace Utf8

theorem valid_cstr {b : Bytes} (h : valid b = true) : valid (cstr b) = true := by
  have hsplit : cstr b ++ b.dropWhile (· != 0) = b := List.takeWhile_append_dropWhile
  cases hd : b.dropWhile (· != 0) with
  | nil =>
    rw [hd, List.append_nil] at hsplit
    rwa [hsplit]
  | cons c t =>
    have hc : c = 0 := by
      have := List.head?_dropWhile_not (· != 0) b
      simpa [hd] using this
    rw [← hsplit, hd, hc] at h
    exact acceptsFrom_before (by decide) h

theorem valid_replaceUnderscores {b : Bytes} (h : valid b = true) :
    valid (replaceUnderscores b) = true := by
  have hclass : ∀ c : UInt8, byteClass (if c = 95 then 32 else c) = byteClass c := by
    intro c
    split
    · rename_i hc
      subst hc
      decide
    · rfl
  exact (acceptsFrom_map hclass 0 b).trans h

theorem valid_of_append {a b : Bytes} (ha : ∀ c ∈ a, c ≤ 0x7F) (h : valid (a ++ b) = true) :
    valid b = true := (acceptsFrom_append b (valid_of_ascii ha)).symm.trans h

end Utf8

theorem numeral_rest_valid {t : Bytes} (h : Utf8.valid t = true) :
    Utf8.valid (numeral t).2.2 = true := by
  have hdigits : ∀ b : Bytes, ∀ c ∈ b.takeWhile isDigit, c ≤ 0x7F := by
    intro b c hc
    have hd := List.mem_takeWhile_imp hc
    simp only [isDigit, Bool.and_eq_true, decide_eq_true_eq] at hd
    exact UInt8.le_trans hd.2 (by decide)
  have hdrop : ∀ b : Bytes, Utf8.valid b = true → Utf8.valid (b.dropWhile isDigit) = true := by
    intro b hb
    refine Utf8.valid_of_append (hdigits b) ?_
    rwa [List.takeWhile_append_dropWhile]
  unfold numeral
  split
  rename_i heq
  split at heq
  · cases heq
    exact hdrop _ (Utf8.valid_of_append (a := [45]) (by decide) h)
  · cases heq
    exact hdrop _ (Utf8.valid_of_append (a := [43]) (by decide) h)
  · cases heq
    exact hdrop _ h

theorem intTokens_valid {old : ℤ} {ws : List Bytes} (h : ∀ t ∈ ws, Utf8.valid t = true) :
    ∀ t ∈ (intTokens old ws).2, Utf8.valid t = true := by
  cases ws with
  | nil => simp [intTokens]
  | cons t ts =>
    rw [intTokens]
    split_ifs
    · simp
    · simp
    · simp
    · intro u hu
      unfold behind at hu
      split at hu
      · exact h u (List.mem_cons_of_mem _ hu)
      · rcases List.mem_cons.mp hu with rfl | hu
        · exact numeral_rest_valid (h t List.mem_cons_self)
        · exact h u (List.mem_cons_of_mem _ hu)

/-- The row is of a known type and all its texts are UTF-8. -/
structure Showable (r : HistoryRow P) : Prop where
  type : 0 ≤ r.eventType ∧ r.eventType ≤ 2
  date : Utf8.valid r.decode.date = true
  imagePath : Utf8.valid r.decode.imagePath = true
  plateNumber : Utf8.valid r.decode.plateNumber = true
  startSnapshot : Utf8.valid r.decode.startSnapshot = true
  endSnapshot : Utf8.valid r.decode.endSnapshot = true

theorem Showable.readable {r : HistoryRow P} (h : Showable r) (f : HistoryFilter) :
    RowReadable f r := by
  obtain ⟨eventType, dates⟩ := f
  cases eventType with
  | none => exact ⟨h.date, h.imagePath, h.plateNumber, fun _ => ⟨h.startSnapshot, h.endSnapshot⟩⟩
  | some t =>
    exact ⟨fun _ => ⟨h.date, h.imagePath⟩, fun _ => h.plateNumber,
      fun _ => ⟨h.startSnapshot, h.endSnapshot⟩⟩

theorem entries_length {f : HistoryFilter} {rows : List (HistoryRow P)}
    (h : ∀ r ∈ rows, Showable r) : (entries f rows).length = rows.length := by
  have hsome : ∀ r ∈ rows, (renderCompact r.decode).isSome = true := by
    intro r hr
    obtain ⟨e, he⟩ := exists_renderCompact (h := r.decode) (h r hr).type
    rw [he]
    rfl
  unfold entries
  cases f.eventType with
  | none => exact List.length_map _
  | some t => exact List.filterMap_length_eq_length.mpr hsome

theorem Stores.showable {payload : Bytes} {r : HistoryRow P} (h : Stores payload r)
    (hvalid : ∀ t ∈ words payload, Utf8.valid t = true) : Showable r := by
  obtain ⟨garbage, hacc, hr⟩ := h
  rw [parseHistory_tokens] at hacc hr
  have hget : ∀ (ws : List Bytes), (∀ t ∈ ws, Utf8.valid t = true) → ∀ i,
      Utf8.valid (ws.getD i []) = true := by
    intro ws hws i
    rw [List.getD_eq_getElem?_getD]
    cases hi : ws[i]? with
    | none => rfl
    | some t => exact hws t (List.mem_of_getElem? hi)
  have hrest : ∀ t ∈ (intTokens (columnInt garbage) ((words payload).drop 3)).2,
      Utf8.valid t = true := intTokens_valid fun t ht => hvalid t (List.mem_of_mem_drop ht)
  simp only [Accepted, not_or, not_lt] at hacc
  rw [hr]
  refine ⟨hacc.2.2.2, ?_, ?_, ?_, ?_, ?_⟩
  · refine Utf8.valid_cstr ?_
    rcases P.columnText_affinity (cstr (replaceUnderscores ((words payload).getD 0 []))) with h | h
    · exact h ▸ Utf8.valid_cstr (Utf8.valid_replaceUnderscores (hget _ hvalid 0))
    · exact Utf8.valid_of_ascii fun c hc => UInt8.le_trans (h c hc).2 (by decide)
  · exact Utf8.valid_cstr (Utf8.valid_cstr (hget _ hvalid 1))
  · exact Utf8.valid_cstr (Utf8.valid_cstr (hget _ hvalid 2))
  · exact Utf8.valid_cstr (Utf8.valid_cstr (hget _ hrest 0))
  · exact Utf8.valid_cstr (Utf8.valid_cstr (hget _ hrest 1))

/-- The tokens of the successful ADD_HISTORY commands are UTF-8. -/
def Clean (served : List (Bytes × Bytes)) : Prop :=
  ∀ payload ∈ added served, ∀ t ∈ words payload, Utf8.valid t = true

/-- A client requests the pages 0 to `n` of `L` records with one filter, and between two
of its requests other clients send ADD_HISTORY. Rows with equal dates stand as `ties`
says in every query. `pages` are the rows that the queries return. -/
structure PagedRun (ties : HistoryRow P → HistoryRow P → Prop)
    (allowed : Call P → Outcome → Prop) (command : QueryCommand) (email : Bytes)
    (f : HistoryFilter) (L n : ℕ) (payload : ℕ → Bytes) (before after : ℕ → World P × Socket)
    (pages : ℕ → List (HistoryRow P)) (reply : ℕ → Option Bytes)
    (served : ℕ → List (Bytes × Bytes)) : Prop where
  line : ∀ m ≤ n, (10 : UInt8) ∉ payload m
  query : ∀ m ≤ n, command.query (payload m) = ⟨true, email, f, L, ((m * L : ℕ) : ℤ)⟩
  request : ∀ m ≤ n, ∃ tr, Prog.Runs (SqlOrder ties)
      (handle (commandLine command.text (payload m))) (before m) tr (reply m) (after m) ∧
    ⟨.selectHistory f L ((m * L : ℕ) : ℤ), pages m⟩ ∈ tr
  between : ∀ m < n, Served (World.Serves allowed) (after m) (served m) (before (m + 1))
  adding : ∀ m < n, ∀ x ∈ served m, (splitCommand x.1).1 = ascii "ADD_HISTORY"
  clean : ∀ m < n, Clean (served m)

/-- `r` stands before `r'` in every query. -/
def Before (ties : HistoryRow P → HistoryRow P → Prop) (r r' : HistoryRow P) : Prop :=
  P.valueLe r'.date r.date = true ∧ (P.valueLe r.date r'.date = true → ties r r')

theorem before_asymm {ties : HistoryRow P → HistoryRow P → Prop}
    (hties : ∀ r r', ties r r' → ¬ties r' r) (r r' : HistoryRow P) (h : Before ties r r') :
    ¬Before ties r' r :=
  fun h' => hties r r' (h.2 h'.1) (h'.2 h.1)

theorem Served.showable {allowed : Call P → Outcome → Prop} {s s' : World P × Socket}
    {served : List (Bytes × Bytes)} (h : Served (World.Serves allowed) s served s')
    (hclean : Clean served) (hs : ∀ r ∈ s.1.db.history, Showable r) :
    ∃ new, s'.1.db.history = s.1.db.history ++ new ∧ new.length = (added served).length ∧
      ∀ r ∈ s'.1.db.history, Showable r := by
  obtain ⟨new, hnew, hhist, -⟩ := h.history
  refine ⟨new, hhist, hnew.length_eq.symm, fun r hr => ?_⟩
  rw [hhist] at hr
  rcases List.mem_append.mp hr with hr | hr
  · exact hs r hr
  · obtain ⟨i, hi, rfl⟩ := List.getElem_of_mem hr
    have hi' : i < (added served).length := hnew.length_eq ▸ hi
    have hstores := (List.forall₂_iff_get.mp hnew).2 i hi' hi
    exact hstores.showable (hclean _ (List.getElem_mem hi'))

theorem sqlOrder_lookup {ties : HistoryRow P → HistoryRow P → Prop} {key : Bytes}
    {s s' : World P × Socket} {row : Option UserRow}
    (h : SqlOrder ties (.selectUserByEmail key) s row s') :
    row = s.1.db.users.selectByEmail key ∧ s' = s := by
  cases h with
  | other _ faultless => exact serves_lookup faultless

section Run

variable {ties : HistoryRow P → HistoryRow P → Prop} {allowed : Call P → Outcome → Prop}
  {command : QueryCommand} {email : Bytes} {f : HistoryFilter} {L n : ℕ} {payload : ℕ → Bytes}
  {before after : ℕ → World P × Socket} {pages : ℕ → List (HistoryRow P)}
  {reply : ℕ → Option Bytes} {served : ℕ → List (Bytes × Bytes)}

theorem PagedRun.page (h : PagedRun ties allowed command email f L n payload before after pages
    reply served) {m : ℕ} (hm : m ≤ n)
    (hreg : ((before m).1.db.users.selectByEmail (cstr email)).isSome = true) :
    after m = before m ∧ ∃ order,
      Arranged ties ((before m).1.db.history.filter f.admits) order ∧
      pages m = Ranking.slice L m order ∧ reply m = queryReply f (pages m) := by
  obtain ⟨tr, hrun, hmem⟩ := h.request m hm
  rw [handle_query command (h.line m hm), h.query m hm] at hrun
  obtain ⟨row, rows, hE, hx, rfl⟩ := runs_answer rfl (fun row s₁ hE => by
    obtain ⟨rfl, rfl⟩ := sqlOrder_lookup hE
    exact ⟨hreg, rfl⟩) hrun
  obtain rfl : pages m = rows := by
    rcases List.mem_cons.mp hmem with hmem | hmem
    · cases hmem
    · cases List.mem_singleton.mp hmem
      rfl
  obtain ⟨hs, order, harr, hpage⟩ := sqlOrder_select hE
  exact ⟨hs, order, harr, hpage.trans (page_slice _ _ _), hx⟩

/-- The states before the requests: the user stays, and the history grows and can be shown. -/
theorem PagedRun.grows (h : PagedRun ties allowed command email f L n payload before after pages
    reply served) (hreg : ((before 0).1.db.users.selectByEmail (cstr email)).isSome = true)
    (hshow : ∀ r ∈ (before 0).1.db.history, Showable r) : ∀ m ≤ n,
    ((before m).1.db.users.selectByEmail (cstr email)).isSome = true ∧
      (∀ r ∈ (before m).1.db.history, Showable r) ∧
      (m < n → ∃ new, (before (m + 1)).1.db.history = (before m).1.db.history ++ new ∧
        new.length = (added (served m)).length) := by
  intro m
  -- from one page to the next: the query changes nothing, the requests between add rows
  induction m with
  | zero =>
    intro hm
    refine ⟨hreg, hshow, fun hlt => ?_⟩
    obtain ⟨hafter, -⟩ := h.page hm hreg
    obtain ⟨new, hnew, hlen, -⟩ := (h.between 0 hlt).showable (h.clean 0 hlt)
      (by rw [hafter]; exact hshow)
    exact ⟨new, hafter ▸ hnew, hlen⟩
  | succ m ih =>
    intro hm
    obtain ⟨hreg', hshow', -⟩ := ih (by omega)
    obtain ⟨hafter, -⟩ := h.page (by omega) hreg'
    have husers := (h.between m hm).users_of_adds (h.adding m hm)
    obtain ⟨-, -, -, hshow''⟩ := (h.between m hm).showable (h.clean m hm)
      (by rw [hafter]; exact hshow')
    have hreg'' : ((before (m + 1)).1.db.users.selectByEmail (cstr email)).isSome = true := by
      rw [husers, hafter]
      exact hreg'
    refine ⟨hreg'', hshow'', fun hlt => ?_⟩
    obtain ⟨hafter', -⟩ := h.page hm hreg''
    obtain ⟨new, hnew, hlen, -⟩ := (h.between (m + 1) hlt).showable (h.clean (m + 1) hlt)
      (by rw [hafter']; exact hshow'')
    exact ⟨new, hafter' ▸ hnew, hlen⟩

/-- A client that reads pages until one is short has received every matching record
that was there at its first request, and each once if none was added meanwhile. -/
theorem paging_loses_nothing {allowed₀ : Call P → Outcome → Prop} {s₀ : World P × Socket}
    {served₀ : List (Bytes × Bytes)} (hempty : s₀.1.db.history = [])
    (hserved : Served (World.Serves allowed₀) s₀ served₀ (before 0)) (hclean : Clean served₀)
    (hties : ∀ r r', ties r r' → ¬ties r' r) (hL : 0 < L)
    (hreg : ((before 0).1.db.users.selectByEmail (cstr email)).isSome = true)
    (h : PagedRun ties allowed command email f L n payload before after pages reply served) :
    (∀ m ≤ n, ∃ text, reply m = some text ∧ queryReply f (pages m) = some text ∧
        (entries f (pages m)).length = (pages m).length) ∧
      ((entries f (pages n)).length < L →
        (∀ r ∈ (before 0).1.db.history, f.admits r = true → ∃ m ≤ n, r ∈ pages m) ∧
        ((∀ m < n, added (served m) = []) → ((List.range (n + 1)).flatMap pages).Perm
          ((before 0).1.db.history.filter f.admits))) := by
  have hshow : ∀ r ∈ (before 0).1.db.history, Showable r := by
    obtain ⟨-, -, -, hshow⟩ := hserved.showable hclean (by rw [hempty]; nofun)
    exact hshow
  have hgrows := h.grows hreg hshow
  have hexists : ∀ m, ∃ order, m ≤ n →
      Arranged ties ((before m).1.db.history.filter f.admits) order ∧
      pages m = Ranking.slice L m order ∧ reply m = queryReply f (pages m) := by
    intro m
    by_cases hm : m ≤ n
    · obtain ⟨-, order, horder⟩ := h.page hm (hgrows m hm).1
      exact ⟨order, fun _ => horder⟩
    · exact ⟨[], fun hm' => absurd hm' hm⟩
  choose order horder using hexists
  have hperm : ∀ m ≤ n, (order m).Perm ((before m).1.db.history.filter f.admits) :=
    fun m hm => (horder m hm).1.perm
  have hsorted : ∀ m ≤ n, (order m).Pairwise (Before ties) := fun m hm => (horder m hm).1.sorted
  have hshown : ∀ m ≤ n, ∀ r ∈ pages m, Showable r := by
    intro m hm r hr
    rw [(horder m hm).2.1] at hr
    have hr' := (hperm m hm).mem_iff.mp ((Ranking.slice_sublist _ _ _).subset hr)
    exact (hgrows m hm).2.1 r (List.mem_filter.mp hr').1
  refine ⟨fun m hm => ?_, fun hshort => ?_⟩
  · have hsome := (queryReply_isSome f (pages m)).mpr fun r hr => (hshown m hm r hr).readable f
    obtain ⟨text, htext⟩ := Option.isSome_iff_exists.mp hsome
    exact ⟨text, (horder m hm).2.2.trans htext, htext, entries_length (hshown m hm)⟩
  · rw [entries_length (hshown n le_rfl), (horder n le_rfl).2.1] at hshort
    have hgrow : ∀ m < n, ((before m).1.db.history.filter f.admits).Sublist
        ((before (m + 1)).1.db.history.filter f.admits) := by
      intro m hm
      obtain ⟨new, hnew, -⟩ := (hgrows m hm.le).2.2 hm
      rw [hnew]
      exact (List.sublist_append_left _ _).filter _
    refine ⟨fun r hr hadm => ?_, fun hnone => ?_⟩
    · obtain ⟨m, hm, hmem⟩ := Ranking.received_by_last hL (before_asymm hties) hgrow hperm hsorted
        hshort (List.mem_filter.mpr ⟨hr, hadm⟩)
      exact ⟨m, hm, (horder m hm).2.1 ▸ hmem⟩
    · -- without additions all pages come from one table
      have hsame : ∀ m ≤ n, (before m).1.db.history = (before 0).1.db.history := by
        intro m
        induction m with
        | zero => exact fun _ => rfl
        | succ m ih =>
          intro hm
          obtain ⟨new, hnew, hlen⟩ := (hgrows m (by omega)).2.2 hm
          rw [hnone m hm, List.length_nil, List.length_eq_zero_iff] at hlen
          rw [hnew, hlen, List.append_nil, ih (by omega)]
      have hperm₀ : ∀ m < n + 1, (order m).Perm ((before 0).1.db.history.filter f.admits) := by
        intro m hm
        rw [← hsame m (by omega)]
        exact hperm m (by omega)
      have hn : ((before 0).1.db.history.filter f.admits).length ≤ (n + 1) * L := by
        rw [← (hperm₀ n (by omega)).length_eq, Nat.add_mul, Nat.one_mul]
        rw [Ranking.slice, List.length_take, List.length_drop] at hshort
        omega
      have hpages : ∀ m ∈ List.range (n + 1), pages m = Ranking.slice L m (order m) :=
        fun m hm => (horder m (Nat.lt_succ_iff.mp (List.mem_range.mp hm))).2.1
      rw [List.flatMap_congr hpages]
      classical
      -- the page of a row is told by the number of rows before it
      refine Ranking.pages_perm hL ((hserved.nodup hempty).filter _) hn hperm₀
        (k := fun r =>
          ((before 0).1.db.history.filter f.admits).countP (fun x => Before ties x r) / L)
        fun m hm i r hi => ?_
      rw [← (hperm₀ m hm).countP_eq,
        ← Ranking.place_eq (before_asymm hties) (hsorted m (by omega)) hi]

end Run

def olderCamera : Bytes := ascii "2025-05-30_14:00:00 c.jpg 56C7890 2"

def threeCameras : World .reference × Socket :=
  (Server.run (handle (commandLine "ADD_HISTORY" olderCamera)) twoCameras).2.2

def byNumber (r r' : HistoryRow .reference) : Prop := r.id < r'.id

def pageOf (m : ℕ) : Bytes := if m = 0 then ascii "u 2 0" else ascii "u 2 2"

def cameras (m : ℕ) : World .reference × Socket := if m = 0 then twoCameras else threeCameras

def ordered (m : ℕ) : List (HistoryRow .reference) :=
  [cameraRow 1 "a.jpg" "12A3456", cameraRow 2 "b.jpg" "34B5678"] ++
    if m = 0 then []
    else [⟨3, .text (ascii "2025-05-30 14:00:00"), ascii "c.jpg", ascii "56C7890", 2, [], [], none⟩]

theorem cameras_history (m : ℕ) : (cameras m).1.db.history = ordered m := by
  unfold cameras ordered
  split <;> rfl

theorem ordered_arranged (m : ℕ) : Arranged byNumber
    ((cameras m).1.db.history.filter (HistoryFilter.admits ⟨none, none⟩)) (ordered m) := by
  rw [cameras_history]
  unfold ordered byNumber
  split
  · exact ⟨.refl _, by decide⟩
  · exact ⟨.refl _, by decide⟩

theorem pageOf_query {m : ℕ} (hm : m ≤ 1) : QueryCommand.all.query (pageOf m) =
    ⟨true, ascii "u", ⟨none, none⟩, (2 : ℕ), ((m * 2 : ℕ) : ℤ)⟩ := by
  rcases Nat.le_one_iff_eq_zero_or_eq_one.mp hm with rfl | rfl <;> rfl

theorem cameras_paged : PagedRun byNumber World.Faultless .all (ascii "u") ⟨none, none⟩ 2 1 pageOf
    cameras cameras (fun m => Ranking.slice 2 m (ordered m))
    (fun m => queryReply ⟨none, none⟩ (Ranking.slice 2 m (ordered m)))
    fun _ => [(commandLine "ADD_HISTORY" olderCamera, created)] where
  line := by decide
  query _ hm := pageOf_query hm
  request m hm := by
    have huser : World.Serves World.Faultless (.selectUserByEmail (cstr (ascii "u"))) (cameras m)
        (some ⟨1, ascii "u", [], []⟩) (cameras m) := by
      unfold cameras
      split <;> exact ⟨.ok, rfl, rfl⟩
    have hline : (10 : UInt8) ∉ pageOf m := by
      unfold pageOf
      split <;> decide
    rw [handle_query .all hline, pageOf_query hm, ← page_slice]
    exact ⟨_, runs_answer_of rfl (.other nofun huser) (.select (ordered_arranged m)),
      List.mem_cons_of_mem _ List.mem_cons_self⟩
  between m hm := by
    obtain rfl : m = 0 := by omega
    exact .cons (Server.runs _ _ (by decide)) .nil
  adding := by decide
  clean := by
    unfold Clean
    decide

theorem cameras_received :
    (entries ⟨none, none⟩ (Ranking.slice 2 1 (ordered 1))).length < 2 ∧
      ∀ r ∈ twoCameras.1.db.history, ∃ m ≤ 1, r ∈ Ranking.slice 2 m (ordered m) := by
  have hshort : (entries ⟨none, none⟩ (Ranking.slice 2 1 (ordered 1))).length < 2 := by decide
  have hclean : Clean [(commandLine "ADD_HISTORY" firstCamera, created),
      (commandLine "ADD_HISTORY" secondCamera, created)] := by
    unfold Clean
    decide
  have hties : ∀ r r', byNumber r r' → ¬byNumber r' r := fun _ _ h h' => Nat.lt_asymm h h'
  obtain ⟨-, hall⟩ := paging_loses_nothing rfl twoCameras_served hclean hties (by decide)
    (by decide) cameras_paged
  exact ⟨hshort, fun r hr => (hall hshort).1 r hr rfl⟩

end CctvServer
