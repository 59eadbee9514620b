import CctvServer.HistoryFields
import CctvServer.HistoryReadable
import CctvServer.Ranking

namespace CctvServer

open CommandHandler HistoryRepository

variable {P : Platform}

/-- An order that `ORDER BY date DESC` permits, with rows of equal dates as `ties` says. -/
structure Arranged (ties : HistoryRow P → HistoryRow P → Prop) (rows order : List (HistoryRow P)) :
    Prop where
  perm : order.Perm rows
  sorted : order.Pairwise fun a b => P.valueLe b.date a.date = true ∧
    (P.valueLe a.date b.date = true → ties a b)

/-- The server's surroundings without faults, every query choosing such an order anew. -/
inductive SqlOrder (ties : HistoryRow P → HistoryRow P → Prop) :
    Env (Res (P := P)) (World P × Socket)
  | select {f : HistoryFilter} {limit offset : ℤ} {s : World P × Socket}
      {order : List (HistoryRow P)}
      (arranged : Arranged ties (s.1.db.history.filter f.admits) order) :
      SqlOrder ties (.selectHistory f limit offset) s (page limit offset order) s
  | other {o : Call P} {s s' : World P × Socket} {r : Res o}
      (other : ∀ f limit offset, o ≠ .selectHistory f limit offset)
      (faultless : World.Serves World.Faultless o s r s') : SqlOrder ties o s r s'

theorem sqlOrder_of_serves {o : Call P} {s s' : World P × Socket} {r : Res o}
    (h : World.Serves World.Faultless o s r s') : SqlOrder (fun _ _ => True) o s r s' := by
  by_cases ho : ∃ f limit offset, o = .selectHistory f limit offset
  · obtain ⟨f, limit, offset, rfl⟩ := ho
    obtain ⟨rfl, n, rfl⟩ := serves_select h
    refine .select ⟨P.orderDesc_perm _ _ _ _, ?_⟩
    exact (P.orderDesc_sorted _ _ _ _).imp fun h => ⟨h, fun _ => trivial⟩
  · push Not at ho
    exact .other ho h

theorem sqlOrder_select {ties : HistoryRow P → HistoryRow P → Prop} {f : HistoryFilter}
    {limit offset : ℤ} {s s' : World P × Socket} {rows : List (HistoryRow P)}
    (h : SqlOrder ties (.selectHistory f limit offset) s rows s') :
    s' = s ∧ ∃ order, Arranged ties (s.1.db.history.filter f.admits) order ∧
      rows = page limit offset order := by
  cases h with
  | select arranged => exact ⟨rfl, _, arranged, rfl⟩
  | other other _ => exact absurd rfl (other _ _ _)

theorem page_slice {α : Type} (L m : ℕ) (order : List α) :
    page (L : ℤ) ((m * L : ℕ) : ℤ) order = Ranking.slice L m order := by
  have hL : ¬(L : ℤ) < 0 := by omega
  rw [page, if_neg hL, Int.toNat_natCast, Int.toNat_natCast, Ranking.slice]

inductive HistorySelection
  | all
  | byEventType (eventType : ℤ)
  | byDateRange (startDate endDate : Bytes)
  | byEventTypeAndDateRange (eventType : ℤ) (startDate endDate : Bytes)

namespace HistorySelection

def get : HistorySelection → ℤ → ℤ → Server P (List (History P))
  | all => getHistories
  | byEventType eventType => getHistoriesByEventType eventType
  | byDateRange startDate endDate => getHistoriesByDateRange startDate endDate
  | byEventTypeAndDateRange eventType startDate endDate =>
      getHistoriesByEventTypeAndDateRange eventType startDate endDate

def filter : HistorySelection → HistoryFilter
  | all => ⟨none, none⟩
  | byEventType eventType => ⟨some eventType, none⟩
  | byDateRange startDate endDate => ⟨none, some (cstr startDate, cstr endDate)⟩
  | byEventTypeAndDateRange eventType startDate endDate =>
      ⟨some eventType, some (cstr startDate, cstr endDate)⟩

def read : HistorySelection → HistoryRow P → History P
  | all, r => r.decode
  | _, r => r.decode.scrub

def matching (q : HistorySelection) (s : World P × Socket) : List (HistoryRow P) :=
  s.1.db.history.filter q.filter.admits

variable {ties : HistoryRow P → HistoryRow P → Prop}

/-- The `m`-th page of `L` rows, as one run of the query returns it. -/
def Fetches (ties : HistoryRow P → HistoryRow P → Prop) (q : HistorySelection) (L m : ℕ)
    (s : World P × Socket) (rows : List (HistoryRow P)) : Prop :=
  ∃ tr s', Prog.Runs (SqlOrder ties) (q.get L ((m * L : ℕ) : ℤ)) s tr (some (rows.map q.read)) s' ∧
    ⟨.selectHistory q.filter L ((m * L : ℕ) : ℤ), rows⟩ ∈ tr

theorem fetches_iff {q : HistorySelection} {L m : ℕ} {s : World P × Socket}
    {rows : List (HistoryRow P)} : q.Fetches ties L m s rows ↔
      ∃ order, Arranged ties (q.matching s) order ∧ rows = Ranking.slice L m order := by
  have hget : ∀ limit offset : ℤ, q.get (P := P) limit offset =
      .call (.selectHistory q.filter limit offset) fun rows => .ret (rows.map q.read) := by
    intro limit offset
    cases q <;> rfl
  unfold Fetches
  simp only [hget]
  constructor
  · rintro ⟨tr, s', ⟨rows', s₁, tr', hE, ⟨rfl, -, -⟩, rfl⟩, hmem⟩
    obtain ⟨-, order, harr, hrows⟩ := sqlOrder_select hE
    rw [List.mem_singleton] at hmem
    cases hmem
    exact ⟨order, harr, hrows.trans (page_slice L m order)⟩
  · rintro ⟨order, harr, rfl⟩
    rw [← page_slice]
    exact ⟨_, s, ⟨_, s, [], .select harr, ⟨rfl, rfl, rfl⟩, rfl⟩, List.mem_singleton.mpr rfl⟩

end HistorySelection

def newer (rows : List (HistoryRow P)) (r : HistoryRow P) : ℕ :=
  rows.countP fun x => ¬P.valueLe x.date r.date = true

/-- How many rows are not older than `r`, itself included. -/
def notOlder (rows : List (HistoryRow P)) (r : HistoryRow P) : ℕ :=
  rows.countP fun x => P.valueLe r.date x.date

/-- No page of `L` rows ends between rows of equal dates. -/
def TiesTogether (L : ℕ) (rows : List (HistoryRow P)) : Prop :=
  ∀ r ∈ rows, newer rows r / L = (notOlder rows r - 1) / L

/-- `r` may stand before `r'`. -/
abbrev Precedes (r r' : HistoryRow P) : Prop := P.valueLe r'.date r.date = true

theorem precedes_refl (r : HistoryRow P) : Precedes r r := by
  have h := P.orderDesc_sorted 0 _ (·.date) [r, r]
  have hperm : (P.orderDesc 0 (·.date) [r, r]).Perm (List.replicate 2 r) :=
    P.orderDesc_perm 0 _ (·.date) [r, r]
  have hr : P.orderDesc 0 (·.date) [r, r] = [r, r] := List.perm_replicate.mp hperm
  rw [hr] at h
  exact (List.pairwise_cons.mp h).1 r (by simp)

variable {rows : List (HistoryRow P)}

theorem Arranged.place {i : ℕ} {order : List (HistoryRow P)} {r : HistoryRow P}
    (h : Arranged (fun _ _ => True) rows order) (hi : order[i]? = some r) :
    newer rows r ≤ i ∧ i < notOlder rows r := by
  have hs : order.Pairwise Precedes := h.sorted.imp fun h => h.1
  obtain ⟨h₁, h₂⟩ := Ranking.place_bounds precedes_refl hs hi
  rw [h.perm.countP_eq] at h₁ h₂
  refine ⟨h₁, ?_⟩
  simpa [notOlder] using h₂

theorem arranged_of_sorted {order order' : List (HistoryRow P)} (hperm : order'.Perm order)
    (h : Arranged (fun _ _ => True) rows order) (hs : order'.Pairwise Precedes) :
    Arranged (fun _ _ => True) rows order' :=
  ⟨hperm.trans h.perm, hs.imp fun h => ⟨h, fun _ => trivial⟩⟩

theorem newer_lt_notOlder {r : HistoryRow P} (hr : r ∈ rows) : newer rows r < notOlder rows r := by
  have hpermitted : Arranged (fun _ _ => True) rows (P.orderDesc 0 (·.date) rows) :=
    ⟨P.orderDesc_perm _ _ _ _, (P.orderDesc_sorted _ _ _ _).imp fun h => ⟨h, fun _ => trivial⟩⟩
  obtain ⟨i, hi⟩ := List.mem_iff_getElem?.mp (hpermitted.perm.mem_iff.mpr hr)
  obtain ⟨h₁, h₂⟩ := hpermitted.place hi
  omega

/-- Pages that hold a row twice, where its ties are on two pages. -/
theorem exists_twice {L : ℕ} {r : HistoryRow P} (hL : 0 < L)
    (htrans : ∀ a b c : P.Value, P.valueLe a b = true → P.valueLe b c = true →
      P.valueLe a c = true) (hr : r ∈ rows) :
    ∃ order : ℕ → List (HistoryRow P), (∀ m, Arranged (fun _ _ => True) rows (order m)) ∧
      r ∈ Ranking.slice L (newer rows r / L) (order (newer rows r / L)) ∧
      (newer rows r / L ≠ (notOlder rows r - 1) / L →
        r ∈ Ranking.slice L ((notOlder rows r - 1) / L) (order ((notOlder rows r - 1) / L))) := by
  have hpermitted : Arranged (fun _ _ => True) rows (P.orderDesc 0 (·.date) rows) :=
    ⟨P.orderDesc_perm _ _ _ _, (P.orderDesc_sorted _ _ _ _).imp fun h => ⟨h, fun _ => trivial⟩⟩
  generalize P.orderDesc 0 (·.date) rows = base at hpermitted
  have hs : base.Pairwise Precedes := hpermitted.sorted.imp fun h => h.1
  have hmem : r ∈ base := hpermitted.perm.mem_iff.mpr hr
  have htrans' : ∀ a b c : HistoryRow P, Precedes a b → Precedes b c → Precedes a c :=
    fun a b c hab hbc => htrans _ _ _ hbc hab
  obtain ⟨first, hperm₁, hs₁, hi₁⟩ := Ranking.exists_first precedes_refl htrans' hs hmem
  obtain ⟨last, hperm₂, hs₂, hi₂⟩ := Ranking.exists_last precedes_refl htrans' hs hmem
  rw [hpermitted.perm.countP_eq] at hi₁ hi₂
  have hlast : last[notOlder rows r - 1]? = some r := by
    rw [← hi₂]
    simp [notOlder]
  refine ⟨fun m => if m = newer rows r / L then first else last, fun m => ?_, ?_, fun hne => ?_⟩
  · dsimp only
    split
    · exact arranged_of_sorted hperm₁ hpermitted hs₁
    · exact arranged_of_sorted hperm₂ hpermitted hs₂
  · beta_reduce
    rw [if_pos rfl, Ranking.mem_slice_iff hL]
    exact ⟨_, hi₁, rfl⟩
  · beta_reduce
    rw [if_neg hne.symm, Ranking.mem_slice_iff hL]
    exact ⟨_, hlast, rfl⟩

theorem Served.nodup {allowed : Call P → Outcome → Prop} {s₀ s : World P × Socket}
    {served : List (Bytes × Bytes)} (h : Served (World.Serves allowed) s₀ served s)
    (hempty : s₀.1.db.history = []) : s.1.db.history.Nodup := by
  obtain ⟨-, -, -, hids⟩ := h.history
  have hrange := hids (by rw [hempty]; rfl)
  exact List.Nodup.of_map HistoryRow.id (hrange ▸ List.nodup_range')

/-- Whatever permitted order each page is taken from, the pages hold every matching row
once, exactly when no page ends between rows of equal dates. -/
theorem pages_partition_iff {allowed : Call P → Outcome → Prop} {s₀ s : World P × Socket}
    {served : List (Bytes × Bytes)} {L n : ℕ} (hempty : s₀.1.db.history = [])
    (hserved : Served (World.Serves allowed) s₀ served s)
    (htrans : ∀ a b c : P.Value, P.valueLe a b = true → P.valueLe b c = true →
      P.valueLe a c = true)
    (q : HistorySelection) (hL : 0 < L) (hn : (q.matching s).length ≤ n * L) :
    (∀ pages : ℕ → List (HistoryRow P),
        (∀ m < n, q.Fetches (fun _ _ => True) L m s (pages m)) →
        ((List.range n).flatMap pages).Perm (q.matching s)) ↔
      TiesTogether L (q.matching s) := by
  have hnodup : (q.matching s).Nodup := (hserved.nodup hempty).filter _
  constructor
  · intro hall r hr
    by_contra hne
    -- a row whose ties lie on two pages can be put on both
    obtain ⟨order, harr, hfirst, hlast⟩ := exists_twice hL htrans hr
    have hperm := hall (fun m => Ranking.slice L m (order m)) fun m _ =>
      HistorySelection.fetches_iff.mpr ⟨order m, harr m, rfl⟩
    have hlt : newer (q.matching s) r / L < (notOlder (q.matching s) r - 1) / L := by
      refine lt_of_le_of_ne (Nat.div_le_div_right ?_) hne
      have := newer_lt_notOlder hr
      omega
    have hbound : (notOlder (q.matching s) r - 1) / L < n := by
      have h₁ := newer_lt_notOlder hr
      have h₂ : notOlder (q.matching s) r ≤ (q.matching s).length := List.countP_le_length
      exact Nat.div_lt_of_lt_mul (by rw [Nat.mul_comm]; omega)
    have hdisjoint := (List.nodup_flatMap.mp (hperm.nodup_iff.mpr hnodup)).2
    have hpq := List.pairwise_iff_getElem.mp hdisjoint _ _ (by simpa using hlt.trans hbound)
      (by simpa using hbound) hlt
    simp only [Function.onFun, List.getElem_range] at hpq
    exact hpq hfirst (hlast hne)
  · intro htogether pages hpages
    have hexists : ∀ m, ∃ order, m < n → Arranged (fun _ _ => True) (q.matching s) order ∧
        pages m = Ranking.slice L m order := by
      intro m
      by_cases hm : m < n
      · obtain ⟨order, h⟩ := HistorySelection.fetches_iff.mp (hpages m hm)
        exact ⟨order, fun _ => h⟩
      · exact ⟨[], fun h => absurd h hm⟩
    choose order horder using hexists
    rw [List.flatMap_congr fun m hm => (horder m (List.mem_range.mp hm)).2]
    -- all places of a row lie on the page of the first of its ties
    have hplace : ∀ m < n, ∀ i r, (order m)[i]? = some r → i / L = newer (q.matching s) r / L := by
      intro m hm i r hi
      obtain ⟨h₁, h₂⟩ := (horder m hm).1.place hi
      have hr : r ∈ q.matching s := (horder m hm).1.perm.mem_iff.mp (List.mem_of_getElem? hi)
      have hlow : newer (q.matching s) r / L ≤ i / L := Nat.div_le_div_right h₁
      have hhigh : i / L ≤ (notOlder (q.matching s) r - 1) / L := Nat.div_le_div_right (by omega)
      exact le_antisymm (hhigh.trans (htogether r hr).symm.le) hlow
    exact Ranking.pages_perm hL hnodup hn (fun m hm => (horder m hm).1.perm) hplace

def firstCamera : Bytes := ascii "2025-05-30_15:00:00 a.jpg 12A3456 2"

def secondCamera : Bytes := ascii "2025-05-30_15:00:00 b.jpg 34B5678 2"

def twoCameras : World .reference × Socket :=
  (Server.run (handle (commandLine "ADD_HISTORY" secondCamera)) (afterAdd firstCamera)).2.2

theorem twoCameras_served : Served (World.Serves World.Faultless) registered
    [(commandLine "ADD_HISTORY" firstCamera, created),
      (commandLine "ADD_HISTORY" secondCamera, created)] twoCameras :=
  .cons (Server.runs _ _ (by decide)) (.cons (Server.runs _ _ (by decide)) .nil)

def cameraRow (id : ℕ) (imagePath plateNumber : String) : HistoryRow .reference :=
  ⟨id, .text (ascii "2025-05-30 15:00:00"), ascii imagePath, ascii plateNumber, 2, [], [], none⟩

theorem twoCameras_history : twoCameras.1.db.history =
    [cameraRow 1 "a.jpg" "12A3456", cameraRow 2 "b.jpg" "34B5678"] := rfl

theorem twoCameras_matching : HistorySelection.all.matching twoCameras =
    [cameraRow 1 "a.jpg" "12A3456", cameraRow 2 "b.jpg" "34B5678"] := by
  rw [HistorySelection.matching, twoCameras_history]
  rfl

theorem twoCameras_inOrder : Arranged (fun _ _ => True) (HistorySelection.all.matching twoCameras)
    [cameraRow 1 "a.jpg" "12A3456", cameraRow 2 "b.jpg" "34B5678"] := by
  rw [twoCameras_matching]
  refine ⟨.refl _, ?_⟩
  simp only [List.pairwise_pair, implies_true, and_true]
  decide

theorem twoCameras_swapped : Arranged (fun _ _ => True) (HistorySelection.all.matching twoCameras)
    [cameraRow 2 "b.jpg" "34B5678", cameraRow 1 "a.jpg" "12A3456"] := by
  rw [twoCameras_matching]
  refine ⟨.swap _ _ _, ?_⟩
  simp only [List.pairwise_pair, implies_true, and_true]
  decide

/-- Both pages of one record are the same record. -/
theorem record_on_two_pages :
    Served (World.Serves World.Faultless) registered
        [(commandLine "ADD_HISTORY" firstCamera, created),
          (commandLine "ADD_HISTORY" secondCamera, created)] twoCameras ∧
      ∃ pages : ℕ → List (HistoryRow .reference),
        (∀ m < 2, HistorySelection.all.Fetches (fun _ _ => True) 1 m twoCameras (pages m)) ∧
        ¬((List.range 2).flatMap pages).Perm (HistorySelection.all.matching twoCameras) := by
  refine ⟨twoCameras_served, fun _ => [cameraRow 1 "a.jpg" "12A3456"], fun m hm => ?_, fun h => ?_⟩
  · rw [HistorySelection.fetches_iff]
    match m with
    | 0 => exact ⟨_, twoCameras_inOrder, rfl⟩
    | 1 => exact ⟨_, twoCameras_swapped, rfl⟩
  · rw [twoCameras_matching] at h
    have hmem := h.mem_iff.mpr (show cameraRow 2 "b.jpg" "34B5678" ∈ _ by simp)
    have hid : ∀ r ∈ (List.range 2).flatMap fun _ => [cameraRow 1 "a.jpg" "12A3456"], r.id = 1 := by
      decide
    exact absurd (hid _ hmem) (by decide)

theorem records_on_one_page : ∃ pages : ℕ → List (HistoryRow .reference),
    (∀ m < 1, HistorySelection.all.Fetches (fun _ _ => True) 2 m twoCameras (pages m)) ∧
      ((List.range 1).flatMap pages).Perm (HistorySelection.all.matching twoCameras) := by
  have htogether : TiesTogether 2 (HistorySelection.all.matching twoCameras) := by
    unfold TiesTogether
    decide
  have hpages : ∀ m < 1, HistorySelection.all.Fetches (fun _ _ => True) 2 m twoCameras
      [cameraRow 2 "b.jpg" "34B5678", cameraRow 1 "a.jpg" "12A3456"] := by
    intro m hm
    rw [HistorySelection.fetches_iff]
    match m with
    | 0 => exact ⟨_, twoCameras_swapped, rfl⟩
  exact ⟨_, hpages, (pages_partition_iff rfl twoCameras_served
    (fun _ _ _ => Reference.valueLe_trans) HistorySelection.all (by decide) (by decide)).mpr
      htogether _ hpages⟩

end CctvServer
