import MediaServer.Foundation.Bytes
import MediaServer.Foundation.Stores
import MediaServer.Path

/-!
# Formatting into a buffer

`ms_strappend` and `ms_strcopy` format their arguments into a buffer whose size they are
given. Their test counts the arguments but not the rest of the pattern, and the NUL that
they add goes where the whole text would have ended, also when `snprintf` has cut it.
-/

namespace MediaServer.Buffer

open Stores

def msErrOutOfRange : Int := -0x03

def intMax : Nat := 2 ^ 31 - 1

/-- A string of C: no byte of it is the NUL that ends it. -/
structure CString where
  bytes : Text
  nul_not_mem : Bytes.nul ∉ bytes
deriving DecidableEq

/-- The size of a destination, an `int` of at least 1. -/
structure Size where
  bytes : Nat
  pos : 0 < bytes
  le : bytes ≤ intMax

/-- What a call stores in `res`, and what it returns. -/
structure Outcome where
  stores : List (Store Char)
  err : Int
deriving DecidableEq, Repr

/-- The text that a pattern of `%s` and literal characters stands for. -/
def sprintf : Text → List Text → Text
  | '%' :: 's' :: pattern, arg :: args => arg ++ sprintf pattern args
  | c :: pattern, args => c :: sprintf pattern args
  | [], _ => []

/-- `snprintf`: at most `n` bytes are stored, the last of them NUL, and the length of the
whole text is returned; `none` is the negative value for a length beyond `INT_MAX`. -/
def snprintf (n : Nat) (text : Text) : List (Store Char) × Option Nat :=
  (if n = 0 then [] else copy 0 (text.take (n - 1) ++ [Bytes.nul]),
    if text.length ≤ intMax then some text.length else none)

def argsLength (args : List CString) : Nat := (args.map fun arg => arg.bytes.length).sum

def formatted (pattern : Text) (args : List CString) : Text :=
  sprintf pattern (args.map CString.bytes)

/-- What the two functions do behind the tests for NULL. -/
def boundedFormat (size : Size) (pattern : Text) (args : List CString) : Outcome :=
  let realSize := size.bytes - 1
  if realSize < argsLength args then ⟨[], msErrOutOfRange⟩
  else
    match snprintf realSize (formatted pattern args) with
    | (stores, none) => ⟨stores, msErrArgInvalid⟩
    | (stores, some len) => ⟨stores ++ [⟨len, Bytes.nul⟩], msErrNone⟩

/-- `ms_strappend`; the strings may be NULL. -/
def msStrappend (size : Size) (pattern : Text) : Option CString → Option CString → Outcome
  | some str1, some str2 => boundedFormat size pattern [str1, str2]
  | _, _ => ⟨[], msErrArgInvalid⟩

/-- `ms_strcopy`; the string may be NULL. -/
def msStrcopy (size : Size) (pattern : Text) : Option CString → Outcome
  | some str1 => boundedFormat size pattern [str1]
  | none => ⟨[], msErrArgInvalid⟩

/-- The patterns that the callers give to `ms_strappend`. -/
inductive AppendPattern where
  | path
  | cid
deriving DecidableEq, Repr

def AppendPattern.text : AppendPattern → Text
  | .path => "%s/%s".toList
  | .cid => "%s%s/cid".toList

/-- The patterns that the callers give to `ms_strcopy`. -/
inductive CopyPattern where
  | whole
  | status
deriving DecidableEq, Repr

def CopyPattern.text : CopyPattern → Text
  | .whole => "%s".toList
  | .status => "/proc/%s/status".toList

/-- No store leaves the destination, and success means that it holds the whole text and
its NUL. -/
structure ExactOrRefused (size : Size) (text : Text) (o : Outcome) : Prop where
  bounded : Within size.bytes o.stores
  complete : o.err = msErrNone → ∀ buffer, Reads (run o.stores buffer) 0 (text ++ [Bytes.nul])

/-- The arguments alone are too long; or the text leaves two bytes of the destination; or
it is the empty text in a destination of one byte; or it is longer than an `int` can
say. -/
def Spared (size : Size) (pattern : Text) (args : List CString) : Prop :=
  size.bytes - 1 < argsLength args ∨
  (formatted pattern args).length + 2 ≤ size.bytes ∨
  (size.bytes = 1 ∧ formatted pattern args = []) ∨
  intMax < (formatted pattern args).length

instance (size : Size) (pattern : Text) (args : List CString) :
    Decidable (Spared size pattern args) :=
  inferInstanceAs (Decidable (_ ∨ _))

section Format

variable {size : Size} {pattern : Text} {args : List CString}

theorem nul_not_mem_sprintf {pattern : Text} {args : List Text} (hpattern : Bytes.nul ∉ pattern)
    (hargs : ∀ arg ∈ args, Bytes.nul ∉ arg) : Bytes.nul ∉ sprintf pattern args := by
  fun_induction sprintf pattern args with
  | case1 pattern arg args ih =>
      obtain ⟨harg, hrest⟩ := List.forall_mem_cons.mp hargs
      have htail : Bytes.nul ∉ pattern := fun hmem => hpattern (by simp [hmem])
      rw [List.mem_append, not_or]
      exact ⟨harg, ih htail hrest⟩
  | case2 args c pattern _ ih =>
      rw [List.mem_cons, not_or] at hpattern ⊢
      exact ⟨hpattern.1, ih hpattern.2 hargs⟩
  | case3 => exact hpattern

theorem snprintf_within {n : Nat} (hn : n ≤ size.bytes) (text : Text) :
    Within size.bytes (snprintf n text).1 := by
  rw [snprintf]
  split
  · exact within_nil
  · refine within_copy ?_
    rw [List.length_append, List.length_take, List.length_singleton]
    omega

theorem boundedFormat_of_accepted (haccepted : argsLength args ≤ size.bytes - 1)
    (hint : (formatted pattern args).length ≤ intMax) :
    boundedFormat size pattern args =
      ⟨(snprintf (size.bytes - 1) (formatted pattern args)).1 ++
        [⟨(formatted pattern args).length, Bytes.nul⟩], msErrNone⟩ := by
  rw [boundedFormat, if_neg (Nat.not_lt.mpr haccepted), snprintf, if_pos hint]

theorem boundedFormat_of_overlong (haccepted : argsLength args ≤ size.bytes - 1)
    (hint : intMax < (formatted pattern args).length) :
    boundedFormat size pattern args =
      ⟨(snprintf (size.bytes - 1) (formatted pattern args)).1, msErrArgInvalid⟩ := by
  rw [boundedFormat, if_neg (Nat.not_lt.mpr haccepted), snprintf, if_neg (Nat.not_le.mpr hint)]

theorem err_eq_none_iff (hint : argsLength args ≤ size.bytes - 1 →
      (formatted pattern args).length ≤ intMax) :
    (boundedFormat size pattern args).err = msErrNone ↔ argsLength args ≤ size.bytes - 1 := by
  constructor
  · intro herr
    by_contra hrefused
    rw [boundedFormat, if_pos (Nat.not_le.mp hrefused)] at herr
    exact absurd herr (by decide)
  · intro haccepted
    rw [boundedFormat_of_accepted haccepted (hint haccepted)]

/-- Whatever is accepted, the buffer holds as much of it as `snprintf` stores. -/
theorem reads_of_accepted (haccepted : argsLength args ≤ size.bytes - 1)
    (hint : (formatted pattern args).length ≤ intMax) (hsize : 2 ≤ size.bytes)
    (buffer : Nat → Char) :
    Reads (run (boundedFormat size pattern args).stores buffer) 0
      ((formatted pattern args).take (size.bytes - 2) ++ [Bytes.nul]) := by
  have hreal : size.bytes - 1 ≠ 0 := by omega
  rw [boundedFormat_of_accepted haccepted hint, snprintf, if_neg hreal, run_concat, Nat.sub_sub]
  generalize formatted pattern args = text
  show Reads (Function.update (run (copy 0 (text.take (size.bytes - 2) ++ [Bytes.nul])) buffer)
    text.length Bytes.nul) 0 (text.take (size.bytes - 2) ++ [Bytes.nul])
  by_cases hshort : text.length ≤ size.bytes - 2
  · rw [List.take_of_length_le hshort]
    have hcopied : Reads (run (copy 0 (text ++ [Bytes.nul])) buffer) 0 (text ++ [Bytes.nul]) :=
      reads_copy
    obtain ⟨htext, -⟩ := reads_append.mp hcopied
    refine reads_append.mpr ⟨htext.update (.inr (by omega)), ?_, trivial⟩
    rw [Nat.zero_add, Function.update_self]
  · refine reads_copy.update (.inr ?_)
    rw [List.length_append, List.length_take, List.length_singleton]
    omega

/-- In a destination of one byte `snprintf` stores nothing. -/
theorem exact_iff_of_single (haccepted : argsLength args ≤ size.bytes - 1)
    (hint : (formatted pattern args).length ≤ intMax) (hsize : size.bytes = 1) :
    ExactOrRefused size (formatted pattern args) (boundedFormat size pattern args) ↔
      formatted pattern args = [] := by
  rw [boundedFormat_of_accepted haccepted hint, snprintf, hsize]
  generalize formatted pattern args = text
  constructor
  · intro h
    obtain ⟨-, hlast⟩ := within_append.mp h.bounded
    have hlt : text.length < size.bytes := (within_cons.mp hlast).1
    rw [hsize] at hlt
    exact List.length_eq_zero_iff.mp (Nat.lt_one_iff.mp hlt)
  · rintro rfl
    refine ⟨?_, fun _ buffer => ⟨?_, trivial⟩⟩
    · rw [hsize]
      exact within_cons.mpr ⟨Nat.zero_lt_one, within_nil⟩
    · exact Function.update_self 0 Bytes.nul buffer

theorem exact_iff_of_larger (hnul : Bytes.nul ∉ formatted pattern args)
    (haccepted : argsLength args ≤ size.bytes - 1)
    (hint : (formatted pattern args).length ≤ intMax) (hsize : 2 ≤ size.bytes) :
    ExactOrRefused size (formatted pattern args) (boundedFormat size pattern args) ↔
      (formatted pattern args).length + 2 ≤ size.bytes := by
  have hreads := reads_of_accepted haccepted hint hsize
  rw [boundedFormat_of_accepted haccepted hint] at hreads ⊢
  have hstored : Within size.bytes (snprintf (size.bytes - 1) (formatted pattern args)).1 :=
    snprintf_within (Nat.sub_le size.bytes 1) (formatted pattern args)
  generalize formatted pattern args = text at hnul hreads hstored ⊢
  constructor
  · intro h
    obtain ⟨-, hlast⟩ := within_append.mp h.bounded
    have hlt : text.length < size.bytes := (within_cons.mp hlast).1
    by_contra hlong
    -- the text has one byte less than the buffer, and its last byte is cut
    have hlength : text.length = size.bytes - 1 := by omega
    obtain ⟨htext, -⟩ := reads_append.mp (h.complete rfl fun _ => Bytes.nul)
    obtain ⟨-, hcut, -⟩ := reads_append.mp (hreads fun _ => Bytes.nul)
    have hindex : 0 + (text.take (size.bytes - 2)).length = 0 + (size.bytes - 2) := by
      rw [List.length_take]
      omega
    rw [hindex, htext.get (by omega)] at hcut
    exact hnul (hcut ▸ List.getElem_mem _)
  · intro hshort
    constructor
    · refine within_append.mpr ⟨hstored, within_cons.mpr ⟨?_, within_nil⟩⟩
      show text.length < size.bytes
      omega
    · intro _ buffer
      have hwhole := hreads buffer
      rwa [List.take_of_length_le (by omega)] at hwhole

/-- The exact condition, for any pattern. -/
theorem boundedFormat_exact_iff (hpattern : Bytes.nul ∉ pattern) :
    ExactOrRefused size (formatted pattern args) (boundedFormat size pattern args) ↔
      Spared size pattern args := by
  have hpos := size.pos
  have hle := size.le
  have hnul : Bytes.nul ∉ formatted pattern args := by
    refine nul_not_mem_sprintf hpattern fun text htext => ?_
    obtain ⟨arg, -, rfl⟩ := List.mem_map.mp htext
    exact arg.nul_not_mem
  rw [Spared]
  by_cases hrefused : size.bytes - 1 < argsLength args
  · rw [boundedFormat, if_pos hrefused]
    exact iff_of_true ⟨within_nil, nofun⟩ (.inl hrefused)
  · have haccepted := Nat.not_lt.mp hrefused
    rw [or_iff_right hrefused]
    by_cases hint : (formatted pattern args).length ≤ intMax
    · rw [or_iff_left (Nat.not_lt.mpr hint)]
      by_cases hsize : size.bytes = 1
      · rw [exact_iff_of_single haccepted hint hsize, and_iff_right hsize, or_iff_right (by omega)]
      · rw [exact_iff_of_larger hnul haccepted hint (by omega), or_iff_left fun h => hsize h.1]
    · rw [boundedFormat_of_overlong haccepted (Nat.not_le.mp hint)]
      refine iff_of_true ⟨snprintf_within (Nat.sub_le _ _) _, nofun⟩ (.inr (.inr ?_))
      exact Nat.not_le.mp hint

end Format

/-- With the patterns of the callers a call is exact or refused if and only if it is
spared. -/
theorem format_exact_iff (size : Size) :
    (∀ (pattern : AppendPattern) (str1 str2 : CString),
      ExactOrRefused size (formatted pattern.text [str1, str2])
          (msStrappend size pattern.text (some str1) (some str2)) ↔
        Spared size pattern.text [str1, str2]) ∧
    ∀ (pattern : CopyPattern) (str1 : CString),
      ExactOrRefused size (formatted pattern.text [str1])
          (msStrcopy size pattern.text (some str1)) ↔
        Spared size pattern.text [str1] := by
  constructor
  · intro pattern str1 str2
    exact boundedFormat_exact_iff (by cases pattern <;> decide)
  · intro pattern str1
    exact boundedFormat_exact_iff (by cases pattern <;> decide)

/-- A buffer for paths. -/
def pathSize : Size := ⟨msFilePathLenMax, by decide, by decide⟩

/-- What the walkers take for the path is what the buffer holds. -/
theorem msStrappend_refines (str1 str2 : CString) (buffer : Nat → Char) :
    let o := msStrappend pathSize AppendPattern.path.text (some str1) (some str2)
    (o.err = msErrNone → ∃ path, MediaServer.msStrappend str1.bytes str2.bytes = some path ∧
      Reads (run o.stores buffer) 0 (path ++ [Bytes.nul])) ∧
    (o.err ≠ msErrNone → MediaServer.msStrappend str1.bytes str2.bytes = none) := by
  intro o
  have hargs : argsLength [str1, str2] = str1.bytes.length + str2.bytes.length := by
    simp [argsLength]
  have hformatted : formatted AppendPattern.path.text [str1, str2] =
      str1.bytes ++ '/' :: str2.bytes := by
    show str1.bytes ++ '/' :: (str2.bytes ++ []) = _
    rw [List.append_nil]
  have hsize : pathSize.bytes = msFilePathLenMax := rfl
  have hint : argsLength [str1, str2] ≤ pathSize.bytes - 1 →
      (formatted AppendPattern.path.text [str1, str2]).length ≤ intMax := by
    intro haccepted
    rw [hformatted, List.length_append, List.length_cons]
    rw [hargs, hsize, msFilePathLenMax] at haccepted
    rw [intMax]
    omega
  have herr : o.err = msErrNone ↔ argsLength [str1, str2] ≤ pathSize.bytes - 1 :=
    err_eq_none_iff hint
  constructor
  · intro h
    have haccepted := herr.mp h
    refine ⟨_, if_pos (hargs ▸ haccepted), ?_⟩
    rw [← hformatted]
    exact reads_of_accepted haccepted (hint haccepted) (by decide) buffer
  · intro h
    exact if_neg (hargs ▸ mt herr.mpr h)

theorem msStrcopy_refines (size : Size) (hsize : 2 ≤ size.bytes) (str1 : CString)
    (buffer : Nat → Char) :
    let o := msStrcopy size CopyPattern.whole.text (some str1)
    (o.err = msErrNone → ∃ text, MediaServer.msStrcopy size.bytes str1.bytes = some text ∧
      Reads (run o.stores buffer) 0 (text ++ [Bytes.nul])) ∧
    (o.err ≠ msErrNone → MediaServer.msStrcopy size.bytes str1.bytes = none) := by
  intro o
  have hargs : argsLength [str1] = str1.bytes.length := by simp [argsLength]
  have hformatted : formatted CopyPattern.whole.text [str1] = str1.bytes := List.append_nil _
  have hint : argsLength [str1] ≤ size.bytes - 1 →
      (formatted CopyPattern.whole.text [str1]).length ≤ intMax := by
    intro haccepted
    have hle := size.le
    rw [hformatted, ← hargs]
    omega
  have herr : o.err = msErrNone ↔ argsLength [str1] ≤ size.bytes - 1 := err_eq_none_iff hint
  constructor
  · intro h
    have haccepted := herr.mp h
    have hreads := reads_of_accepted haccepted (hint haccepted) hsize buffer
    rw [hformatted] at hreads
    exact ⟨_, if_pos (hargs ▸ haccepted), hreads⟩
  · intro h
    exact if_neg (hargs ▸ mt herr.mpr h)

def CString.replicate (n : Nat) : CString where
  bytes := List.replicate n 'a'
  nul_not_mem := fun h => absurd (List.eq_of_mem_replicate h) (by decide)

/-- A path that leaves at most one byte of the buffer. -/
theorem not_exact_near_limit {n : Nat} (hn : n = 244 ∨ n = 245) : ¬ ExactOrRefused pathSize
    (formatted AppendPattern.path.text [CString.replicate 3850, CString.replicate n])
    (msStrappend pathSize AppendPattern.path.text (some (CString.replicate 3850))
      (some (CString.replicate n))) := by
  intro h
  have hspared := (boundedFormat_exact_iff (by decide)).mp h
  have hformatted : (formatted AppendPattern.path.text
      [CString.replicate 3850, CString.replicate n]).length = 3851 + n := by
    show (List.replicate 3850 'a' ++ '/' :: (List.replicate n 'a' ++ [])).length = _
    rw [List.length_append, List.length_cons, List.length_append, List.length_replicate,
      List.length_replicate, List.length_nil]
    omega
  have hargs : argsLength [CString.replicate 3850, CString.replicate n] = 3850 + n := by
    show (List.replicate 3850 'a').length + ((List.replicate n 'a').length + 0) = _
    rw [List.length_replicate, List.length_replicate, Nat.add_zero]
  have hsize : pathSize.bytes = 4096 := rfl
  have hint : intMax = 2147483647 := rfl
  rw [Spared, hformatted, hargs, hsize] at hspared
  omega

/-- In a directory whose path has 3850 bytes a name of 245 overruns a buffer for paths, and
a name of 244 loses its last byte there. -/
theorem format_inexact :
    (¬ ExactOrRefused pathSize
      (formatted AppendPattern.path.text [CString.replicate 3850, CString.replicate 245])
      (msStrappend pathSize AppendPattern.path.text (some (CString.replicate 3850))
        (some (CString.replicate 245)))) ∧
    ¬ ExactOrRefused pathSize
      (formatted AppendPattern.path.text [CString.replicate 3850, CString.replicate 244])
      (msStrappend pathSize AppendPattern.path.text (some (CString.replicate 3850))
        (some (CString.replicate 244))) :=
  ⟨not_exact_near_limit (.inr rfl), not_exact_near_limit (.inl rfl)⟩

end MediaServer.Buffer
