import CctvServer.HistoryFields
import CctvServer.HistoryReadable

namespace CctvServer

open CommandHandler HistoryRepository IStream

variable {P : Platform}

structure ReadBack (ws : List Bytes) (h : History P) : Prop where
  date : h.date = replaceUnderscores (ws.getD 0 [])
  imagePath : h.imagePath = ws.getD 1 []
  plateNumber : h.plateNumber = ws.getD 2 []
  startSnapshot : h.startSnapshot = ws.getD 4 []
  endSnapshot : h.endSnapshot = ws.getD 5 []

/-- The tokens from the event type on whose snapshots come back: no number leaves no
snapshot to be read, and the rest of a number is read as the first of them. -/
def SnapshotsKept : List Bytes → Prop
  | [] => True
  | t :: ts =>
      if (numeral t).2.1 = [] then ts = []
      else if (numeral t).2.2 = [] then ∀ u ∈ ts.take 2, (0 : UInt8) ∉ u
      else ts.getD 0 [] = cstr (numeral t).2.2 ∧ ts.getD 1 [] = cstr (numeral t).2.2

instance : DecidablePred SnapshotsKept
  | [] => .isTrue trivial
  | t :: ts => inferInstanceAs (Decidable (if (numeral t).2.1 = [] then ts = []
      else if (numeral t).2.2 = [] then ∀ u ∈ ts.take 2, (0 : UInt8) ∉ u
      else ts.getD 0 [] = cstr (numeral t).2.2 ∧ ts.getD 1 [] = cstr (numeral t).2.2))

/-- The tokens of a record that comes back as it was sent. -/
structure Kept (P : Platform) (ws : List Bytes) : Prop where
  date : (0 : UInt8) ∉ ws.getD 0 []
  literal : ∀ n, P.numeric (replaceUnderscores (ws.getD 0 [])) = some n →
    P.numericText n = replaceUnderscores (ws.getD 0 [])
  imagePath : (0 : UInt8) ∉ ws.getD 1 []
  plateNumber : (0 : UInt8) ∉ ws.getD 2 []
  snapshots : SnapshotsKept (ws.drop 3)

theorem cstr_eq_self_iff {b : Bytes} : cstr b = b ↔ (0 : UInt8) ∉ b :=
  ⟨fun h => h ▸ zero_notMem_cstr b, cstr_eq_self⟩

theorem zero_mem_replaceUnderscores {b : Bytes} :
    (0 : UInt8) ∈ replaceUnderscores b ↔ (0 : UInt8) ∈ b := by
  have hchar : ∀ c : UInt8, (if c = 95 then (32 : UInt8) else c) = 0 ↔ c = 0 := by
    intro c
    split
    · rename_i h
      subst h
      decide
    · exact Iff.rfl
  simp [replaceUnderscores, hchar]

/-- A date column gives a text back unless it takes it for a number in another spelling. -/
theorem columnText_eq_iff {d : Bytes} : cstr (P.columnText (P.affinity (cstr d))) = d ↔
    (0 : UInt8) ∉ d ∧ ∀ n, P.numeric d = some n → P.numericText n = d := by
  constructor
  · intro h
    have hnul : (0 : UInt8) ∉ d := h ▸ zero_notMem_cstr _
    refine ⟨hnul, fun n hn => ?_⟩
    have htext : (0 : UInt8) ∉ P.numericText n := fun h0 =>
      absurd (P.numericText_ascii n 0 h0).1 (by decide)
    rw [cstr_eq_self hnul, Platform.affinity, hn] at h
    rwa [Platform.columnText, cstr_eq_self htext] at h
  · rintro ⟨hnul, hn⟩
    rw [cstr_eq_self hnul, Platform.affinity]
    split
    · rename_i n h
      rw [Platform.columnText, hn n h, cstr_eq_self hnul]
    · exact cstr_eq_self hnul

theorem snapshots_eq_iff {garbage : ℤ} {T : List Bytes} (hT : ∀ t ∈ T, t ≠ [])
    (htype : 0 ≤ (intTokens garbage T).1 ∧ (intTokens garbage T).1 ≤ 2) :
    (cstr ((intTokens garbage T).2.getD 0 []) = T.getD 1 [] ∧
      cstr ((intTokens garbage T).2.getD 1 []) = T.getD 2 []) ↔ SnapshotsKept T := by
  cases T with
  | nil => exact iff_of_true ⟨rfl, rfl⟩ trivial
  | cons t ts =>
    rw [List.getD_cons_succ, List.getD_cons_succ, SnapshotsKept]
    rw [intTokens] at htype ⊢
    by_cases hdigits : (numeral t).2.1 = []
    · rw [if_pos hdigits, if_pos hdigits]
      cases ts with
      | nil => exact iff_of_true ⟨rfl, rfl⟩ rfl
      | cons u us =>
        have hu : u ≠ [] := hT u (by simp)
        exact iff_of_false (fun h => hu h.1.symm) (List.cons_ne_nil _ _)
    · rw [if_neg hdigits] at htype ⊢
      rw [if_neg hdigits]
      by_cases hmin : numeralValue t < intMin
      · rw [if_pos hmin] at htype
        exact absurd htype.1 (by decide)
      · rw [if_neg hmin] at htype ⊢
        by_cases hmax : intMax < numeralValue t
        · rw [if_pos hmax] at htype
          exact absurd htype.2 (by decide)
        · rw [if_neg hmax]
          by_cases hrest : (numeral t).2.2 = []
          · rw [if_pos hrest, behind, if_pos hrest]
            cases ts with
            | nil => simp
            | cons u us => cases us <;> simp [cstr_eq_self_iff]
          · rw [if_neg hrest, behind, if_neg hrest, List.getD_cons_zero, List.getD_cons_succ]
            constructor
            · rintro ⟨h₁, h₂⟩
              rw [← h₁, cstr_cstr] at h₂
              exact ⟨h₁.symm, h₂.symm⟩
            · rintro ⟨h₁, h₂⟩
              rw [h₁, h₂, cstr_cstr]
              exact ⟨rfl, rfl⟩

/-- A row shows the tokens of its request exactly when none of them is altered on the way. -/
theorem Stores.readBack_iff {payload : Bytes} {r : HistoryRow P} (h : Stores payload r) :
    ReadBack (words payload) r.decode ↔ Kept P (words payload) := by
  obtain ⟨garbage, hacc, hr⟩ := h
  rw [parseHistory_tokens] at hacc hr
  have htype : 0 ≤ (intTokens (columnInt garbage) ((words payload).drop 3)).1 ∧
      (intTokens (columnInt garbage) ((words payload).drop 3)).1 ≤ 2 := by
    simp only [Accepted, not_or, not_lt] at hacc
    exact ⟨hacc.2.2.2.1, hacc.2.2.2.2⟩
  have hsnap := snapshots_eq_iff (fun t ht => words_ne_nil (List.mem_of_mem_drop ht)) htype
  have hget : ∀ i, ((words payload).drop 3).getD i [] = (words payload).getD (3 + i) [] := by
    intro i
    rw [List.getD_eq_getElem?_getD, List.getElem?_drop, List.getD_eq_getElem?_getD]
  rw [hget, hget] at hsnap
  rw [hr]
  constructor
  · rintro ⟨hd, hi, hp, hs, he⟩
    obtain ⟨hnul, hn⟩ := columnText_eq_iff.mp hd
    refine ⟨fun h => hnul (zero_mem_replaceUnderscores.mpr h), hn, cstr_eq_self_iff.mp ?_,
      cstr_eq_self_iff.mp ?_, hsnap.mp ⟨?_, ?_⟩⟩
    · exact (cstr_cstr _).symm.trans hi
    · exact (cstr_cstr _).symm.trans hp
    · exact (cstr_cstr _).symm.trans hs
    · exact (cstr_cstr _).symm.trans he
  · rintro ⟨hd, hn, hi, hp, hs⟩
    obtain ⟨hs, he⟩ := hsnap.mpr hs
    refine ⟨columnText_eq_iff.mpr ⟨fun h => hd (zero_mem_replaceUnderscores.mp h), hn⟩, ?_, ?_, ?_,
      ?_⟩
    · exact (cstr_cstr _).trans (cstr_eq_self hi)
    · exact (cstr_cstr _).trans (cstr_eq_self hp)
    · exact (cstr_cstr _).trans hs
    · exact (cstr_cstr _).trans he

theorem runs_getHistories {limit offset : ℤ} {s s' : World P × Socket}
    {tr : List (Event (Res (P := P)))} {x : Option (List (History P))}
    (h : Prog.Runs (World.Serves World.Faultless) (getHistories limit offset) s tr x s') :
    s' = s ∧ ∃ n, x = some ((s.1.db.selectHistory n ⟨none, none⟩ limit offset).map
      HistoryRow.decode) := by
  obtain ⟨rows, s₁, tr₁, hE, ⟨-, rfl, rfl⟩, -⟩ := h
  obtain ⟨rfl, n, rfl⟩ := serves_select hE
  exact ⟨rfl, n, rfl⟩

theorem selectHistory_all (db : Database P) (n : ℕ) {limit offset : ℤ} (ho : offset ≤ 0)
    (hl : db.history.length ≤ limit) :
    (db.selectHistory n ⟨none, none⟩ limit offset).Perm db.history := by
  have hfilter : db.history.filter (HistoryFilter.admits ⟨none, none⟩) = db.history :=
    List.filter_eq_self.mpr fun _ _ => rfl
  have hperm := P.orderDesc_perm n _ (·.date) db.history
  have hlimit : ¬limit < 0 := by omega
  rw [Database.selectHistory, hfilter, page, if_neg hlimit, Int.toNat_of_nonpos ho, List.drop_zero,
    List.take_of_length_le (by rw [hperm.length_eq]; omega)]
  exact hperm

/-- The record of an answered ADD_HISTORY request comes back as it was sent, whatever is added
later, exactly when its tokens are kept. -/
theorem record_reads_back_iff {allowed allowed' : Call P → Outcome → Prop}
    {s s₁ s₂ s₃ : World P × Socket} {line : Bytes} {served : List (Bytes × Bytes)}
    {tr tr' : List (Event (Res (P := P)))} {limit offset : ℤ} {x : Option (List (History P))}
    (hl : (splitCommand line).1 = ascii "ADD_HISTORY")
    (hadd : Prog.Runs (World.Serves allowed) (handle line) s tr (some created) s₁)
    (hlater : Served (World.Serves allowed') s₁ served s₂)
    (hget : Prog.Runs (World.Serves World.Faultless) (getHistories limit offset) s₂ tr' x s₃) :
    ∃ rows : List (HistoryRow P), x = some (rows.map HistoryRow.decode) ∧
      (∀ r ∈ rows, r ∈ s₂.1.db.history) ∧
      (offset ≤ 0 → s₂.1.db.history.length ≤ limit → rows.Perm s₂.1.db.history) ∧
      ∃ r ∈ s₂.1.db.history, r.id = Database.nextId s.1.db.history ∧
        (∀ r' ∈ s₂.1.db.history, r'.id = r.id → r' = r) ∧
        (ReadBack (words (splitCommand line).2) r.decode ↔
          Kept P (words (splitCommand line).2)) := by
  obtain ⟨-, n, hx⟩ := runs_getHistories hget
  obtain ⟨r, hr, hid, hmem, hunique⟩ := Served.added_row hl hadd hlater
  exact ⟨_, hx, fun r hr => mem_selectHistory hr, fun ho hlen => selectHistory_all _ n ho hlen,
    r, hmem, hid, hunique, hr.readBack_iff⟩

def cutPath : Bytes := ascii "2025-01-01_00:00:00 a" ++ 0 :: ascii "b 12A3456 2"

/-- The path comes back without what follows the NUL. -/
theorem nul_cuts_record :
    Served (World.Serves World.Faultless) registered
        [(commandLine "ADD_HISTORY" cutPath, created)] (afterAdd cutPath) ∧
      ∃ tr h s, Prog.Runs (World.Serves World.Faultless) (getHistories 10 0) (afterAdd cutPath) tr
          (some [h]) s ∧
        h.imagePath = ascii "a" ∧ ¬ReadBack (words cutPath) h := by
  refine ⟨.cons (Server.runs _ _ (by decide)) .nil, _, _, _,
    Server.runs (getHistories 10 0) (afterAdd cutPath) rfl, rfl, fun h => ?_⟩
  exact absurd h.imagePath (by decide)

def keptRecord : Bytes := ascii "2025-05-30_15:00:00 images/b.jpg 12A3456 0 s.jpg e.jpg"

theorem kept_record_reads_back :
    ∃ rows : List (HistoryRow .reference), rows.length = 2 ∧
      ∃ r ∈ rows, r.id = 1 ∧ ReadBack (words keptRecord) r.decode := by
  have hlater : Served (World.Serves World.Faultless) (afterAdd keptRecord)
      [(commandLine "ADD_HISTORY" cutPath, created)] _ :=
    .cons (Server.runs _ _ (by decide)) .nil
  have hl : (splitCommand (commandLine "ADD_HISTORY" keptRecord)).1 = ascii "ADD_HISTORY" := by
    decide
  obtain ⟨rows, -, -, hperm, r, hr, hid, -, hiff⟩ := record_reads_back_iff hl
    (Server.runs (handle (commandLine "ADD_HISTORY" keptRecord)) registered (by decide)) hlater
    (Server.runs (getHistories 10 0) _ rfl)
  have hkept : Kept .reference (words keptRecord) :=
    ⟨by decide, by decide, by decide, by decide, by decide⟩
  have hrows := hperm (by decide) (by decide)
  have hpayload : (splitCommand (commandLine "ADD_HISTORY" keptRecord)).2 = keptRecord := by decide
  rw [hpayload] at hiff
  exact ⟨rows, hrows.length_eq, r, hrows.mem_iff.mpr hr, hid, hiff.mpr hkept⟩

end CctvServer
