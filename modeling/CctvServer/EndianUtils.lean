import CctvServer.Bytes
import Mathlib.Data.BitVec
import Mathlib.Tactic.IntervalCases

namespace CctvServer

/-- The byte swap of a 32-bit word on a little-endian machine. -/
def htonl (x : BitVec 32) : BitVec 32 :=
  x <<< 24 ||| (x &&& 0xFF00#32) <<< 8 ||| ((x >>> 8) &&& 0xFF00#32) ||| x >>> 24

def ntohl (x : BitVec 32) : BitVec 32 := htonl x

def htonll (value : BitVec 64) : BitVec 64 :=
  (htonl ((value &&& 0xFFFFFFFF#64).setWidth 32)).setWidth 64 <<< 32 |||
    (htonl ((value >>> 32).setWidth 32)).setWidth 64

def ntohll (value : BitVec 64) : BitVec 64 :=
  (ntohl ((value &&& 0xFFFFFFFF#64).setWidth 32)).setWidth 64 <<< 32 |||
    (ntohl ((value >>> 32).setWidth 32)).setWidth 64

/-- The bytes of a 64-bit word in the memory of a little-endian machine. -/
def memory (x : BitVec 64) : Bytes := (List.range 8).map fun i => ⟨x.extractLsb' (8 * i) 8⟩

def ofMemory (b : Bytes) : BitVec 64 :=
  b.foldr (fun c x => x <<< 8 ||| c.toBitVec.setWidth 64) 0#64

/-- The big-endian form of a number below `2 ^ 64`. -/
def bigEndian (n : ℕ) : Bytes := (List.range 8).map fun i => UInt8.ofNat (n / 2 ^ (8 * (7 - i)))

theorem htonl_bit (x : BitVec 32) (i : ℕ) (hi : i < 32) :
    (htonl x).getLsbD i = x.getLsbD (8 * (3 - i / 8) + i % 8) := by
  interval_cases i <;> simp [htonl]

theorem lowWord_bit (x : BitVec 64) (i : ℕ) (hi : i < 32) :
    ((x &&& 0xFFFFFFFF#64).setWidth 32).getLsbD i = x.getLsbD i := by
  interval_cases i <;> simp

/-- Two 32-bit swaps and their exchange move bit `i` of byte 7 to byte 0. -/
theorem htonll_bit (x : BitVec 64) (i : ℕ) (hi : i < 64) :
    (htonll x).getLsbD i = x.getLsbD (8 * (7 - i / 8) + i % 8) := by
  simp only [htonll, BitVec.getLsbD_or, BitVec.getLsbD_shiftLeft, BitVec.getLsbD_setWidth]
  by_cases h : i < 32
  · have hm : 8 * (3 - i / 8) + i % 8 < 32 := by omega
    have hi' : 8 * (7 - i / 8) + i % 8 = 32 + (8 * (3 - i / 8) + i % 8) := by omega
    rw [htonl_bit _ _ h, hi']
    simp [h, hi, hm]
  · have h' : i - 32 < 32 := by omega
    have hm : 8 * (3 - (i - 32) / 8) + (i - 32) % 8 < 32 := by omega
    have hi' : 8 * (7 - i / 8) + i % 8 = 8 * (3 - (i - 32) / 8) + (i - 32) % 8 := by omega
    have hz : (htonl ((x >>> 32).setWidth 32)).getLsbD i = false :=
      BitVec.getLsbD_of_ge _ _ (by omega)
    rw [htonl_bit _ _ h', lowWord_bit _ _ hm, hi', hz]
    simp [h, hi]
    omega

theorem ntohll_htonll (x : BitVec 64) : ntohll (htonll x) = x := by
  have hn : ntohll = htonll := rfl
  refine BitVec.eq_of_getLsbD_eq fun i hi => ?_
  have h : 8 * (7 - (8 * (7 - i / 8) + i % 8) / 8) + (8 * (7 - i / 8) + i % 8) % 8 = i := by omega
  rw [hn, htonll_bit _ _ hi, htonll_bit _ _ (by omega), h]

@[simp] theorem memory_length (x : BitVec 64) : (memory x).length = 8 := by simp [memory]

theorem ofMemory_memory (x : BitVec 64) : ofMemory (memory x) = x := by
  refine BitVec.eq_of_getLsbD_eq fun i hi => ?_
  simp only [ofMemory, memory, List.range, List.range.loop, List.map_cons, List.map_nil,
    List.foldr_cons, List.foldr_nil]
  interval_cases i <;> simp

/-- The bytes `htonll` puts on the wire are the big-endian form of the number. -/
theorem memory_htonll {n : ℕ} (h : n < 2 ^ 64) :
    memory (htonll (BitVec.ofNat 64 n)) = bigEndian n := by
  refine List.map_congr_left fun i hi => ?_
  have hi8 : i < 8 := List.mem_range.mp hi
  have hswap : (htonll (BitVec.ofNat 64 n)).extractLsb' (8 * i) 8 =
      (BitVec.ofNat 64 n).extractLsb' (8 * (7 - i)) 8 := by
    refine BitVec.eq_of_getLsbD_eq fun j hj => ?_
    have hij : 8 * (7 - (8 * i + j) / 8) + (8 * i + j) % 8 = 8 * (7 - i) + j := by omega
    rw [BitVec.getLsbD_extractLsb', BitVec.getLsbD_extractLsb', htonll_bit _ _ (by omega), hij]
  rw [hswap]
  refine UInt8.toNat_inj.mp ?_
  rw [UInt8.toNat_ofBitVec, BitVec.extractLsb'_toNat, BitVec.toNat_ofNat, Nat.mod_eq_of_lt h,
    Nat.shiftRight_eq_div_pow, UInt8.toNat_ofNat']

theorem bigEndian_head {n : ℕ} (h : n < 2 ^ 62) : ∃ c t, bigEndian n = c :: t ∧ c < 64 := by
  refine ⟨UInt8.ofNat (n / 2 ^ 56), _, rfl, ?_⟩
  have : n / 2 ^ 56 < 64 := by omega
  rw [UInt8.lt_iff_toNat_lt, UInt8.toNat_ofNat', Nat.mod_eq_of_lt (by omega)]
  exact this

end CctvServer
