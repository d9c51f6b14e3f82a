import Mathlib.Data.Char
import Mathlib.Data.List.TakeWhile
import Mathlib.Tactic.Ring

/-!
# Numbers and strings in a sequence of bytes

A byte is a character below 256. Numbers are stored with the least significant byte
first, signed ones in two's complement, and a string ends at its first NUL.

What has been stored is read back at its position, whatever stands behind it.
-/

namespace Bytes

def nul : Char := '\x00'

/-- The `width` bytes of a number. -/
def number : Nat → Nat → List Char
  | 0, _ => []
  | width + 1, n => Char.ofNat (n % 256) :: number width (n / 256)

/-- The number that some bytes stand for. -/
def value : List Char → Nat
  | [] => 0
  | b :: bytes => b.toNat + 256 * value bytes

def numberAt (width : Nat) (bytes : List Char) (i : Nat) : Nat :=
  value ((bytes.drop i).take width)

/-- The string that starts at an index. -/
def stringAt (bytes : List Char) (i : Nat) : List Char := (bytes.drop i).takeWhile (· ≠ nul)

/-- What `fgets` reads when the buffer has room for so many bytes before the NUL, and what
is left. -/
def fgets : Nat → List Char → List Char × List Char
  | 0, bytes => ([], bytes)
  | _ + 1, [] => ([], [])
  | room + 1, b :: bytes =>
      if b = '\n' then ([b], bytes)
      else
        let (line, rest) := fgets room bytes
        (b :: line, rest)

/-- A 32-bit number read as a signed one. -/
def signed (n : Nat) : Int := if n < 2 ^ 31 then n else n - 2 ^ 32

/-- The 32-bit number that a signed one is stored as. -/
def unsigned (z : Int) : Nat := (z % 2 ^ 32).toNat

@[simp] theorem length_number (width n : Nat) : (number width n).length = width := by
  induction width generalizing n with
  | zero => rfl
  | succ width ih => rw [number, List.length_cons, ih]

theorem toNat_ofNat {n : Nat} (h : n < 256) : (Char.ofNat n).toNat = n := by
  have hvalid : n.isValidChar := .inl (by omega)
  rw [Char.ofNat, dif_pos hvalid]
  rfl

theorem value_number {width n : Nat} (h : n < 256 ^ width) : value (number width n) = n := by
  induction width generalizing n with
  | zero =>
      rw [pow_zero] at h
      rw [number, value]
      omega
  | succ width ih =>
      rw [pow_succ] at h
      have hrest : n / 256 < 256 ^ width := (Nat.div_lt_iff_lt_mul (by decide)).mpr h
      rw [number, value, toNat_ofNat (by omega), ih hrest]
      omega

/-- Positions behind `front` are positions in what follows it. -/
theorem numberAt_append {front bytes : List Char} {width i : Nat} (h : front.length ≤ i) :
    numberAt width (front ++ bytes) i = numberAt width bytes (i - front.length) := by
  rw [numberAt, List.drop_append, List.drop_eq_nil_of_le h, List.nil_append, numberAt]

theorem numberAt_number {width n : Nat} (back : List Char) (h : n < 256 ^ width) :
    numberAt width (number width n ++ back) 0 = n := by
  rw [numberAt, List.drop_zero, List.take_left' (length_number width n), value_number h]

/-- A number that needs fewer bytes than it has contains a NUL. -/
theorem nul_mem_number {width n : Nat} (h : n < 256 ^ width) : nul ∈ number (width + 1) n := by
  induction width generalizing n with
  | zero =>
      obtain rfl : n = 0 := by
        rw [pow_zero] at h
        omega
      decide
  | succ width ih =>
      rw [pow_succ] at h
      have hrest : n / 256 < 256 ^ width := (Nat.div_lt_iff_lt_mul (by decide)).mpr h
      rw [number]
      exact List.mem_cons_of_mem _ (ih hrest)

theorem stringAt_append {front bytes : List Char} {i : Nat} (h : front.length ≤ i) :
    stringAt (front ++ bytes) i = stringAt bytes (i - front.length) := by
  rw [stringAt, List.drop_append, List.drop_eq_nil_of_le h, List.nil_append, stringAt]

theorem stringAt_string {string : List Char} (back : List Char) (h : nul ∉ string) :
    stringAt (string ++ nul :: back) 0 = string := by
  have hall : ∀ c ∈ string, (decide (c ≠ nul)) = true := fun c hc =>
    decide_eq_true fun heq => h (heq ▸ hc)
  rw [stringAt, List.drop_zero, List.takeWhile_append_of_pos hall, List.takeWhile_cons]
  simp

theorem stringAt_replicate (n : Nat) : stringAt (List.replicate n nul ++ [nul]) 0 = [] := by
  rw [← List.replicate_succ']
  show stringAt ([] ++ nul :: List.replicate n nul) 0 = []
  exact stringAt_string _ (by simp)

/-- A string does not depend on what follows a NUL. -/
theorem stringAt_append_of_mem {bytes : List Char} (back : List Char) (h : nul ∈ bytes) :
    stringAt (bytes ++ back) 0 = stringAt bytes 0 := by
  rw [stringAt, List.drop_zero, stringAt, List.drop_zero]
  induction bytes with
  | nil => cases h
  | cons b bytes ih =>
      by_cases hb : b = nul
      · simp [hb]
      · have hrest : nul ∈ bytes := (List.mem_cons.mp h).resolve_left (Ne.symm hb)
        rw [List.cons_append, List.takeWhile_cons, List.takeWhile_cons, ih hrest]

theorem fgets_append (room : Nat) (bytes : List Char) :
    (fgets room bytes).1 ++ (fgets room bytes).2 = bytes := by
  induction room generalizing bytes with
  | zero => rfl
  | succ room ih =>
      cases bytes with
      | nil => rfl
      | cons b bytes =>
          rw [fgets]
          split
          · rfl
          · exact congrArg (b :: ·) (ih bytes)

/-- Each call gets on in the file. -/
theorem length_fgets_cons (room : Nat) (b : Char) (bytes : List Char) :
    (fgets (room + 1) (b :: bytes)).2.length < (b :: bytes).length := by
  rw [fgets]
  split
  · exact Nat.lt_succ_self _
  · have happend := congrArg List.length (fgets_append room bytes)
    rw [List.length_append] at happend
    have hle : (fgets room bytes).2.length ≤ bytes.length := by omega
    exact Nat.lt_succ_of_le hle

theorem signed_unsigned {z : Int} (hlow : -2 ^ 31 ≤ z) (hhigh : z < 2 ^ 31) :
    signed (unsigned z) = z := by
  rw [signed, unsigned]
  split <;> omega

theorem unsigned_lt (z : Int) : unsigned z < 256 ^ 4 := by
  rw [unsigned]
  omega

end Bytes
