/-
The values the program handles: `std::string` as its bytes, ordered byte
by byte as `std::string::compare` orders them; a row, `std::map<string,
string>`, as a map iterated in the order of its keys; ids as the 32-bit
numbers the client draws.

`Ciphertext` is a pointer and a size in the source. It is the bytes it was
built from here: the buffers the source lets dangle are not modelled.
-/
import Mathlib

namespace Zql

abbrev Str := List UInt8

abbrev Ciphertext := List UInt8

/-- `std::map<std::string, std::string>`. -/
abbrev Row := Std.ExtTreeMap Str Str

theorem getElem?_insert_if {α β : Type} [Ord α] [Std.TransOrd α] [Std.LawfulEqOrd α] [DecidableEq α]
    (m : Std.ExtTreeMap α β) (key : α) (value : β) (k : α) :
    (m.insert key value)[k]? = if k = key then some value else m[k]? := by
  rw [Std.ExtTreeMap.getElem?_insert]
  by_cases hk : k = key
  · rw [if_pos hk, if_pos (Std.compare_eq_iff_eq.mpr hk.symm)]
  · rw [if_neg hk, if_neg fun hc => hk (Std.compare_eq_iff_eq.mp hc).symm]

/-- The bytes of `"_ope"`. -/
def opeEnding : Str := [0x5F, 0x6F, 0x70, 0x65]

def hasEnding (fullString ending : Str) : Bool :=
  if ending.length ≤ fullString.length then
    (fullString.drop (fullString.length - ending.length)).take ending.length == ending
  else false

/-- The bytes `"%llu"` and `"%d"` print for a number that is not negative. -/
def decimal (n : Nat) : Str := (Nat.toDigits 10 n).map fun c => UInt8.ofNat c.toNat

def formatPath (path : UInt64) : Str := decimal path.toNat

/-- Reading the bytes back as characters: a digit is one byte. -/
theorem decimal_toDigits (n : Nat) : (decimal n).map (fun b => Char.ofNat b.toNat) = Nat.toDigits 10 n := by
  rw [decimal, List.map_map]
  refine (List.map_congr_left fun c hc => ?_).trans (List.map_id _)
  have hd := Nat.isDigit_of_mem_toDigits (by omega) (by omega) hc
  have hlt : c.toNat < 256 := by
    simp only [Char.isDigit, Bool.and_eq_true, decide_eq_true_eq] at hd
    have : c.val.toNat ≤ 57 := hd.2
    exact Nat.lt_of_le_of_lt this (by omega)
  show Char.ofNat (UInt8.ofNat c.toNat).toNat = c
  rw [UInt8.toNat_ofNat', Nat.mod_eq_of_lt hlt, Char.ofNat_toNat]

theorem decimal_injective {m n : Nat} (h : decimal m = decimal n) : m = n := by
  have hd : Nat.toDigits 10 m = Nat.toDigits 10 n := by
    rw [← decimal_toDigits, ← decimal_toDigits, h]
  rw [← Nat.ofDigitChars_ten_toDigits (n := m), hd, Nat.ofDigitChars_ten_toDigits]

theorem formatPath_injective {p q : UInt64} (h : formatPath p = formatPath q) : p = q :=
  UInt64.toNat_inj.mp (decimal_injective h)

end Zql
