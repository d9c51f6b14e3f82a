import MediaServer.Types
import Mathlib.Data.List.Basic
import Mathlib.Data.List.Count

/-!
# The array of pending scan requests

`_insert_array` moves a request from the queue into the array of pending ones.
A request of a smaller scan type takes the place of every pending request of the
same storage with a larger one; the loop over the array does not stop at the
first such entry. A power-off request goes to the front.
-/

namespace MediaServer.Scan

/-- `ms_dir_scan_type_t`, with the value `POWEROFF` that shares the field. -/
inductive ScanType where
  | invalid
  | part
  | all
  | powerOff
deriving DecidableEq, Repr

/-- The numbers that the code compares. -/
def ScanType.code : ScanType → Nat
  | .invalid => 0
  | .part => 1
  | .all => 2
  | .powerOff => 10000

/-- One `ms_scan_data_t`. The array and the queue hold pointers; `id` is the
object's address, and no field changes between its push and its release. -/
structure ScanData where
  id : Nat
  path : Option Text
  storageType : StorageType
  scanType : ScanType
deriving DecidableEq, Repr

/-- The three nested tests of the loop. -/
def supersedes (insertData data : ScanData) : Bool :=
  data.scanType ≠ .powerOff && data.storageType = insertData.storageType &&
    insertData.scanType.code < data.scanType.code

/-- The loop of `_insert_array` with `n` iterations left, at index `i`. -/
def insertArrayLoop (insertData : ScanData) : Nat → Nat → List ScanData → Bool →
    List ScanData × Bool
  | 0, _, garray, insertOk => (garray, insertOk)
  | n + 1, i, garray, insertOk =>
      match garray[i]? with
      | none => (garray, insertOk)
      | some data =>
          if supersedes insertData data then
            insertArrayLoop insertData n (i + 1) ((garray.eraseIdx i).insertIdx i insertData) true
          else insertArrayLoop insertData n (i + 1) garray insertOk

/-- `_insert_array`. -/
def insertArray (garray : List ScanData) (insertData : ScanData) : List ScanData :=
  if insertData.scanType = .powerOff then insertData :: garray
  else
    let (garray', insertOk) := insertArrayLoop insertData garray.length 0 garray false
    if insertOk then garray' else garray' ++ [insertData]

/-- What one iteration leaves at its index. -/
def replaced (insertData data : ScanData) : ScanData :=
  if supersedes insertData data then insertData else data

theorem insertIdx_length_append {α : Type} (front rest : List α) (a : α) :
    (front ++ rest).insertIdx front.length a = front ++ a :: rest := by
  induction front with
  | nil => rfl
  | cons b front ih =>
      rw [List.cons_append, List.length_cons, List.insertIdx_succ_cons, ih]
      rfl

theorem insertArrayLoop_eq (d : ScanData) (front rest : List ScanData) (ok : Bool) :
    insertArrayLoop d rest.length front.length (front ++ rest) ok =
      (front ++ rest.map (replaced d), ok || rest.any (supersedes d)) := by
  induction rest generalizing front ok with
  | nil => simp [insertArrayLoop]
  | cons e rest ih =>
      have hget : (front ++ e :: rest)[front.length]? = some e := by simp
      cases he : supersedes d e with
      | true =>
          have hset : ((front ++ e :: rest).eraseIdx front.length).insertIdx front.length d =
              front ++ d :: rest := by
            rw [List.eraseIdx_append_of_length_le (Nat.le_refl _), Nat.sub_self]
            exact insertIdx_length_append front rest d
          have hstep := ih (front ++ [d]) true
          simp only [List.length_append, List.length_cons, List.length_nil, Nat.zero_add,
            List.append_assoc, List.singleton_append] at hstep
          simp [insertArrayLoop, he, hset, hstep, replaced]
      | false =>
          have hstep := ih (front ++ [e]) ok
          simp only [List.length_append, List.length_cons, List.length_nil, Nat.zero_add,
            List.append_assoc, List.singleton_append] at hstep
          simp [insertArrayLoop, he, hstep, replaced]

/-- The array after an ordinary request: every superseded entry is replaced, and
the request is appended when there was none. -/
theorem insertArray_eq {d : ScanData} (garray : List ScanData) (hd : d.scanType ≠ .powerOff) :
    insertArray garray d =
      if garray.any (supersedes d) then garray.map (replaced d) else garray ++ [d] := by
  have hloop := insertArrayLoop_eq d [] garray false
  simp only [List.length_nil, List.nil_append, Bool.false_or] at hloop
  rw [insertArray, if_neg hd, hloop]
  cases hany : garray.any (supersedes d) with
  | true => simp
  | false =>
      have hsame : garray.map (replaced d) = garray := by
        refine (List.map_congr_left fun e he => ?_).trans (List.map_id garray)
        have hno : ¬ supersedes d e := List.any_eq_false.mp hany e he
        simp [replaced, hno]
      simp [hsame]

/-- The entries that a request overwrites. -/
def displaced (garray : List ScanData) (insertData : ScanData) : List ScanData :=
  if insertData.scanType = .powerOff then [] else garray.filter (supersedes insertData)

/-- Overwriting moves entries out of the array and the new request into it. -/
theorem count_map_replaced (d e : ScanData) (garray : List ScanData) :
    (garray.map (replaced d)).count e + (garray.filter (supersedes d)).count e =
      garray.count e + if d = e then (garray.filter (supersedes d)).length else 0 := by
  induction garray with
  | nil => simp
  | cons b garray ih =>
      cases hb : supersedes d b with
      | true =>
          simp only [List.map_cons, replaced, hb, if_true, List.count_cons, List.filter_cons,
            List.length_cons, beq_iff_eq]
          split_ifs at ih ⊢ <;> omega
      | false =>
          simp only [List.map_cons, replaced, hb, List.count_cons, List.filter_cons, beq_iff_eq,
            Bool.false_eq_true, if_false]
          omega

/-- The request enters the array once, or once for each entry that it overwrites. -/
theorem count_insertArray (garray : List ScanData) (d e : ScanData) :
    (insertArray garray d).count e + (displaced garray d).count e =
      garray.count e + if d = e then max 1 (displaced garray d).length else 0 := by
  by_cases hd : d.scanType = .powerOff
  · simp [insertArray, displaced, hd, List.count_cons]
  · rw [insertArray_eq garray hd, displaced, if_neg hd]
    by_cases hany : garray.any (supersedes d) = true
    · have hpos : 0 < (garray.filter (supersedes d)).length := by
        rwa [List.length_filter_pos_iff, ← List.any_eq_true]
      rw [if_pos hany, count_map_replaced, Nat.max_eq_right hpos]
    · have hnone : garray.filter (supersedes d) = [] := by
        simpa [List.filter_eq_nil_iff] using hany
      rw [if_neg hany, hnone]
      simp [List.count_append, List.count_singleton]

theorem count_displaced_le (garray : List ScanData) (d e : ScanData) :
    (displaced garray d).count e ≤ garray.count e := by
  rw [displaced]
  split
  · simp
  · exact List.filter_sublist.count_le e

theorem supersedes_of_mem_displaced {garray : List ScanData} {d e : ScanData}
    (h : e ∈ displaced garray d) : e ∈ garray ∧ supersedes d e = true := by
  rw [displaced] at h
  split at h
  · cases h
  · exact List.mem_filter.mp h

theorem self_mem_insertArray (garray : List ScanData) (d : ScanData) :
    d ∈ insertArray garray d := by
  have hcount := count_insertArray garray d d
  have hle := count_displaced_le garray d d
  rw [if_pos rfl] at hcount
  exact List.count_pos_iff.mp (by omega)

theorem eq_or_mem_of_mem_insertArray {garray : List ScanData} {d e : ScanData}
    (h : e ∈ insertArray garray d) : d = e ∨ e ∈ garray := by
  have hcount := count_insertArray garray d e
  have hpos := List.count_pos_iff.mpr h
  by_cases hde : d = e
  · exact .inl hde
  · rw [if_neg hde] at hcount
    exact .inr (List.count_pos_iff.mp (by omega))

theorem mem_insertArray_or_displaced {garray : List ScanData} {d e : ScanData}
    (h : e ∈ garray) : e ∈ insertArray garray d ∨ e ∈ displaced garray d := by
  have hcount := count_insertArray garray d e
  have hpos := List.count_pos_iff.mpr h
  by_cases hin : 0 < (insertArray garray d).count e
  · exact .inl (List.count_pos_iff.mp hin)
  · exact .inr (List.count_pos_iff.mp (by omega))

end MediaServer.Scan
