import CctvServer.CommandHandler
import Mathlib.Data.List.Sort

namespace CctvServer

namespace Reference

theorem valueLe_total (a b : SqlValue ℤ) :
    SqlValue.le (fun m n => decide (m ≤ n)) a b = true ∨
      SqlValue.le (fun m n => decide (m ≤ n)) b a = true := by
  cases a <;> cases b <;> simp [SqlValue.le]
  · exact Int.le_total _ _
  · exact List.le_total _ _

theorem valueLe_trans {a b c : SqlValue ℤ}
    (h₁ : SqlValue.le (fun m n => decide (m ≤ n)) a b = true)
    (h₂ : SqlValue.le (fun m n => decide (m ≤ n)) b c = true) :
    SqlValue.le (fun m n => decide (m ≤ n)) a c = true := by
  cases a <;> cases b <;> cases c <;> simp_all [SqlValue.le]
  · exact Int.le_trans h₁ h₂
  · exact List.le_trans h₁ h₂

def newer {α : Type} (date : α → SqlValue ℤ) (a b : α) : Prop :=
  SqlValue.le (fun m n => decide (m ≤ n)) (date b) (date a) = true

instance {α : Type} (date : α → SqlValue ℤ) : DecidableRel (newer date) :=
  fun a b => inferInstanceAs (Decidable (SqlValue.le _ (date b) (date a) = true))

instance {α : Type} (date : α → SqlValue ℤ) : Std.Total (newer date) :=
  ⟨fun a b => valueLe_total (date b) (date a)⟩

instance {α : Type} (date : α → SqlValue ℤ) : IsTrans α (newer date) :=
  ⟨fun _ _ _ h₁ h₂ => valueLe_trans h₂ h₁⟩

def digest (password : Bytes) : Bytes :=
  if password = ascii "mypassword" then
    [137, 224, 21, 54, 172, 32, 114, 121, 64, 157, 77, 225, 229, 37, 62, 1,
     244, 161, 118, 158, 105, 109, 176, 214, 6, 44, 169, 184, 245, 103, 103, 200]
  else if password = ascii "newpass" then
    [37, 60, 46, 120, 108, 36, 20, 220, 174, 200, 219, 241, 29, 245, 21, 181,
     7, 83, 113, 69, 75, 147, 165, 104, 125, 36, 217, 109, 219, 243, 185, 57]
  else List.replicate 32 0

/-- Configurations whose texts the parser below knows. -/
def configs : List Json :=
  [.object [], .object [("show_bbox", .bool true)], .object [("show_bbox", .bool false)],
    .object [("show_timestamp", .bool true)],
    .object [("show_bbox", .bool true), ("show_timestamp", .bool true)]]

theorem printable_zero : ∀ c ∈ ascii ".0", 33 ≤ c ∧ c ≤ 126 := by decide

end Reference

open Reference in
/-- Numbers are integers, speeds are whole numbers, and digests and JSON texts
are tabulated. -/
def Platform.reference : Platform where
  Num := ℤ
  numLe m n := decide (m ≤ n)
  numeric b := if IStream.IsNumeral b then some (digitsValue b) else none
  numericText := decimalInt
  orderDesc _ _ date rows := rows.insertionSort (newer date)
  Speed := ℤ
  strtof b := if IStream.IsNumeral b then (digitsValue b, true) else (0, false)
  minusOne := -1
  nonneg v := decide (0 ≤ v)
  rounded v := ⟨decimalInt v ++ ascii ".0", fun c hc =>
    (List.mem_append.mp hc).elim (printable_decimalInt v c) (printable_zero c)⟩
  sha256 := digest
  putTime _ := ascii "1970-01-01T00:00:00Z"
  flushes k n := decide (min 1024 (8191 - k) ≤ n)
  parseJson b := configs.find? fun j => j.dump = some b
  numeric_chars b n h c hc := by
    split at h
    · rename_i hb
      simp [isNumericChar, hb.2 c hc]
    · cases h
  numericText_ascii n c hc := by
    obtain ⟨h₁, h₂⟩ := printable_decimalInt n c hc
    exact ⟨UInt8.le_trans (by decide) h₁, h₂⟩
  orderDesc_perm _ _ _ rows := List.perm_insertionSort _ rows
  orderDesc_sorted _ _ date rows := List.pairwise_insertionSort (newer date) rows
  strtof_nonneg b _ := by
    split
    · simp
    · rfl
  minusOne_neg := by decide
  parseJson_utf8 b j h := by
    have := List.find?_some h
    rw [decide_eq_true_eq] at this
    exact (Json.dump_isSome_iff j).mp (by rw [this]; rfl)

namespace Reference

def emptyFs : FileSystem where
  entry p := if p = [] then some (.dir 0) else none
  content _ := []
  fresh := 0
  cwd := []
  limits := ⟨255, 4095, by decide⟩
  root_dir := ⟨0, rfl⟩
  cwd_dir := ⟨0, rfl⟩
  parent_dir n p h := by simp at h
  ino_lt p i h := by
    split at h <;> simp at h
  ino_inj p q i h := by
    split at h <;> simp at h

def emptyDb (P : Platform) : Database P := ⟨⟨[], 0⟩, [], 0⟩

def world (fs : FileSystem) : World Platform.reference := ⟨fs, emptyDb _⟩

end Reference

end CctvServer
