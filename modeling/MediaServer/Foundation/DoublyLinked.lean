import Mathlib.Data.List.Nodup
import Mathlib.Data.List.Perm.Subperm

/-!
# Doubly linked lists in an explicit heap

A list is held by its latest node: `previous` leads to older nodes and `next`
back to newer ones. Heap cells are addressed by numbers, freed cells stay
addressable as dangling pointers, and an access to one of them is a fault
(`none`), so a proof that an operation returns is a proof of memory safety.

`Chain` reads the list along `previous` and records what each node's `next`
field holds; `NextLinked` says that these fields are the inverse links. Keeping
the two apart lets an operation that repairs only one direction be specified.
-/

namespace DoublyLinked

variable {α : Type}

structure Cell (α : Type) where
  data : α
  previous : Option Nat
  next : Option Nat
deriving DecidableEq, Repr

/-- Cells in order of allocation. A freed cell is `none`; its address is never
handed out again. -/
structure Heap (α : Type) where
  slots : List (Option (Cell α)) := []
deriving DecidableEq, Repr

namespace Heap

def load (h : Heap α) (a : Nat) : Option (Cell α) := (h.slots[a]?).join

/-- The raw update. `setNext`, `setPrevious` and `free` guard it by a load. -/
def put (h : Heap α) (a : Nat) (c : Option (Cell α)) : Heap α := ⟨h.slots.set a c⟩

def size (h : Heap α) : Nat := h.slots.length

def alloc (h : Heap α) (c : Cell α) : Heap α := ⟨h.slots ++ [some c]⟩

def setNext (h : Heap α) (a : Nat) (next : Option Nat) : Option (Heap α) :=
  (h.load a).map fun c => h.put a (some { c with next })

def setPrevious (h : Heap α) (a : Nat) (previous : Option Nat) : Option (Heap α) :=
  (h.load a).map fun c => h.put a (some { c with previous })

def free (h : Heap α) (a : Nat) : Option (Heap α) :=
  (h.load a).map fun _ => h.put a none

/-- `if (p) p->next = next`. -/
def guardedSetNext (h : Heap α) : Option Nat → Option Nat → Option (Heap α)
  | none, _ => some h
  | some a, next => h.setNext a next

/-- `if (p) p->previous = previous`. -/
def guardedSetPrevious (h : Heap α) : Option Nat → Option Nat → Option (Heap α)
  | none, _ => some h
  | some a, previous => h.setPrevious a previous

theorem lt_size_of_load {h : Heap α} {a : Nat} {c : Cell α} (hc : h.load a = some c) :
    a < h.size := by
  by_contra hge
  have hnone : h.slots[a]? = none := List.getElem?_eq_none (Nat.le_of_not_lt hge)
  simp [load, hnone] at hc

theorem load_put {h : Heap α} {a : Nat} {c : Cell α} (live : h.load a = some c)
    (v : Option (Cell α)) (b : Nat) :
    (h.put a v).load b = if b = a then v else h.load b := by
  have hlt := lt_size_of_load live
  by_cases hb : b = a
  · subst hb
    simp only [load, put, if_pos]
    rw [List.getElem?_set_self hlt]
    rfl
  · simp only [load, put, if_neg hb]
    rw [List.getElem?_set_ne (Ne.symm hb)]

@[simp] theorem load_alloc_self (h : Heap α) (c : Cell α) : (h.alloc c).load h.size = some c := by
  simp [load, alloc, size]

theorem load_alloc_of_load {h : Heap α} {a : Nat} {c : Cell α} (new : Cell α)
    (hc : h.load a = some c) : (h.alloc new).load a = some c := by
  have hlt : a < h.slots.length := lt_size_of_load hc
  rw [← hc]
  simp only [load, alloc]
  rw [List.getElem?_append_left hlt]

end Heap

/-- A node as the backward walk sees it, with the current content of its `next`
field. -/
structure Node (α : Type) where
  addr : Nat
  data : α
  next : Option Nat
deriving DecidableEq, Repr

/-- The walk along `previous` from `p` meets exactly these live nodes, newest
first, and then arrives at `q`. -/
def Chain (h : Heap α) : Option Nat → List (Node α) → Option Nat → Prop
  | p, [], q => p = q
  | p, n :: rest, q =>
      p = some n.addr ∧ ∃ prev, h.load n.addr = some ⟨n.data, prev, n.next⟩ ∧ Chain h prev rest q

/-- Each `next` field points back to the node visited just before, the first one
to `next`. -/
def NextLinked : Option Nat → List (Node α) → Prop
  | _, [] => True
  | next, n :: rest => n.next = next ∧ NextLinked (some n.addr) rest

/-- The address of the oldest node of a segment, or the given one if it is empty. -/
def lastAddr (default : Option Nat) : List (Node α) → Option Nat
  | [] => default
  | n :: rest => lastAddr (some n.addr) rest

/-- Overwrite the `next` field of the newest node of a segment. -/
def retarget (next : Option Nat) : List (Node α) → List (Node α)
  | [] => []
  | n :: rest => { n with next } :: rest

@[simp] theorem lastAddr_concat (default : Option Nat) (xs : List (Node α)) (n : Node α) :
    lastAddr default (xs ++ [n]) = some n.addr := by
  induction xs generalizing default with
  | nil => rfl
  | cons m xs ih => exact ih (some m.addr)

theorem nextLinked_append {next : Option Nat} {xs ys : List (Node α)} :
    NextLinked next (xs ++ ys) ↔ NextLinked next xs ∧ NextLinked (lastAddr next xs) ys := by
  induction xs generalizing next with
  | nil => simp [NextLinked, lastAddr]
  | cons n xs ih =>
      simp only [List.cons_append, NextLinked, lastAddr, ih, and_assoc]

theorem retarget_data (next : Option Nat) (nodes : List (Node α)) :
    (retarget next nodes).map Node.data = nodes.map Node.data := by
  cases nodes <;> rfl

theorem NextLinked.retarget {next next' : Option Nat} {xs : List (Node α)}
    (h : NextLinked next xs) : NextLinked next' (retarget next' xs) := by
  cases xs with
  | nil => trivial
  | cons n xs => exact ⟨rfl, h.2⟩

namespace Chain

variable {h h' : Heap α} {p q : Option Nat} {xs ys nodes : List (Node α)}

theorem append_iff : Chain h p (xs ++ ys) q ↔ ∃ m, Chain h p xs m ∧ Chain h m ys q := by
  induction xs generalizing p with
  | nil =>
      constructor
      · exact fun hc => ⟨p, rfl, hc⟩
      · rintro ⟨m, rfl, hc⟩
        exact hc
  | cons n xs ih =>
      constructor
      · rintro ⟨hp, prev, hload, hrest⟩
        obtain ⟨m, hx, hy⟩ := ih.mp hrest
        exact ⟨m, ⟨hp, prev, hload, hx⟩, hy⟩
      · rintro ⟨m, ⟨hp, prev, hload, hx⟩, hy⟩
        exact ⟨hp, prev, hload, ih.mpr ⟨m, hx, hy⟩⟩

/-- Only the cells of the segment matter. -/
theorem frame (hc : Chain h p nodes q)
    (same : ∀ n ∈ nodes, h'.load n.addr = h.load n.addr) : Chain h' p nodes q := by
  induction nodes generalizing p with
  | nil => exact hc
  | cons n nodes ih =>
      obtain ⟨hp, prev, hload, hrest⟩ := hc
      refine ⟨hp, prev, (same n List.mem_cons_self).trans hload, ih hrest ?_⟩
      exact fun m hm => same m (List.mem_cons_of_mem n hm)

theorem live (hc : Chain h p nodes q) {n : Node α} (hn : n ∈ nodes) :
    ∃ prev, h.load n.addr = some ⟨n.data, prev, n.next⟩ := by
  induction nodes generalizing p with
  | nil => cases hn
  | cons m nodes ih =>
      obtain ⟨-, prev, hload, hrest⟩ := hc
      rcases List.mem_cons.mp hn with rfl | hn
      · exact ⟨prev, hload⟩
      · exact ih hrest hn

/-- A terminating backward walk is determined by the heap and its start. -/
theorem unique (hx : Chain h p xs none) (hy : Chain h p ys none) : xs = ys := by
  induction xs generalizing p ys with
  | nil =>
      obtain rfl : p = none := hx
      cases ys with
      | nil => rfl
      | cons n ys => exact nomatch hy.1
  | cons n xs ih =>
      obtain ⟨rfl, prev, hload, hrest⟩ := hx
      cases ys with
      | nil => exact nomatch (show some n.addr = none from hy)
      | cons m ys =>
          obtain ⟨haddr, prev', hload', hrest'⟩ := hy
          have hsame : n.addr = m.addr := Option.some.inj haddr
          rw [← hsame, hload] at hload'
          obtain ⟨hdata, rfl, hnext⟩ := Cell.mk.inj (Option.some.inj hload')
          obtain rfl : n = m := by
            cases n
            cases m
            simp_all
          rw [ih hrest hrest']

/-- No node is met twice: meeting one again would start the same infinite walk. -/
theorem nodup (hc : Chain h p nodes none) : (nodes.map Node.addr).Nodup := by
  induction nodes generalizing p with
  | nil => exact List.nodup_nil
  | cons n nodes ih =>
      have hrest := hc
      obtain ⟨rfl, prev, -, htail⟩ := hrest
      refine List.nodup_cons.mpr ⟨?_, ih htail⟩
      intro hmem
      obtain ⟨m, hm, haddr⟩ := List.mem_map.mp hmem
      obtain ⟨front, back, rfl⟩ := List.append_of_mem hm
      obtain ⟨middle, -, hsuffix⟩ := append_iff.mp htail
      have hstart : middle = some n.addr := by rw [hsuffix.1, haddr]
      have hlength := congrArg List.length (unique hc (hstart ▸ hsuffix))
      simp only [List.length_cons, List.length_append] at hlength
      omega

theorem length_le_size (hc : Chain h p nodes none) : nodes.length ≤ h.size := by
  have hsub : nodes.map Node.addr ⊆ List.range h.size := by
    intro a ha
    obtain ⟨n, hn, rfl⟩ := List.mem_map.mp ha
    obtain ⟨prev, hload⟩ := hc.live hn
    exact List.mem_range.mpr (Heap.lt_size_of_load hload)
  simpa using (List.subperm_of_subset hc.nodup hsub).length_le

/-- Writing the newest node's `next` field leaves the rest of the segment alone. -/
theorem guardedSetNext (hc : Chain h p ys none) (next : Option Nat) :
    ∃ h', h.guardedSetNext p next = some h' ∧ Chain h' p (retarget next ys) none ∧
      ∀ a, a ∉ ys.map Node.addr → h'.load a = h.load a := by
  cases ys with
  | nil =>
      obtain rfl : p = none := hc
      exact ⟨h, rfl, rfl, fun _ _ => rfl⟩
  | cons n ys =>
      have hnodup := hc.nodup
      obtain ⟨rfl, prev, hload, hrest⟩ := hc
      refine ⟨h.put n.addr (some ⟨n.data, prev, next⟩), ?_, ⟨rfl, prev, ?_, ?_⟩, ?_⟩
      · simp [Heap.guardedSetNext, Heap.setNext, hload]
      · rw [Heap.load_put hload, if_pos rfl]
      · refine hrest.frame fun m hm => ?_
        have hother : m.addr ≠ n.addr := by
          intro heq
          exact (List.nodup_cons.mp hnodup).1 (heq ▸ List.mem_map_of_mem hm)
        rw [Heap.load_put hload, if_neg hother]
      · intro a ha
        rw [Heap.load_put hload, if_neg (fun heq => ha (by simp [heq]))]

/-- Writing the oldest node's `previous` field moves the end of the segment. An
empty segment has no such node, and then its start is its new end. -/
theorem guardedSetPrevious (hc : Chain h p xs q) (hnodup : (xs.map Node.addr).Nodup)
    (q' : Option Nat) :
    ∃ h', h.guardedSetPrevious (lastAddr none xs) q' = some h' ∧
      Chain h' (if xs = [] then q' else p) xs q' ∧
      ∀ a, a ∉ xs.map Node.addr → h'.load a = h.load a := by
  rcases List.eq_nil_or_concat' xs with rfl | ⟨front, n, rfl⟩
  · exact ⟨h, rfl, rfl, fun _ _ => rfl⟩
  · obtain ⟨m, hfront, hm, prev, hload, -⟩ := append_iff.mp hc
    have hdisjoint : n.addr ∉ front.map Node.addr := by
      rw [List.map_append, List.nodup_append] at hnodup
      intro hmem
      exact hnodup.2.2 n.addr hmem n.addr (by simp) rfl
    refine ⟨h.put n.addr (some ⟨n.data, q', n.next⟩), ?_, ?_, ?_⟩
    · simp [Heap.guardedSetPrevious, Heap.setPrevious, hload]
    · rw [if_neg (by simp)]
      refine append_iff.mpr ⟨m, hfront.frame fun k hk => ?_, hm, q', ?_, rfl⟩
      · have hother : k.addr ≠ n.addr := by
          intro heq
          exact hdisjoint (heq ▸ List.mem_map_of_mem hk)
        rw [Heap.load_put hload, if_neg hother]
      · rw [Heap.load_put hload, if_pos rfl]
    · intro a ha
      rw [Heap.load_put hload, if_neg (fun heq => ha (by simp [heq]))]

/-- Whether the walk starts at the node behind a segment is whether the segment
is empty. -/
theorem start_eq {a : Nat} (hc : Chain h p xs (some a)) (fresh : a ∉ xs.map Node.addr)
    (q' : Option Nat) : (if p = some a then q' else p) = if xs = [] then q' else p := by
  cases xs with
  | nil =>
      obtain rfl : p = some a := hc
      simp
  | cons n xs =>
      have hother : n.addr ≠ a := fun heq => fresh (by simp [heq])
      simp [hc.1, hother]

end Chain

/-- Inside a linked segment no `next` field leaves the segment on the newer side. -/
theorem next_ne {next outer : Option Nat} {nodes : List (Node α)} {n k : Node α}
    (linked : NextLinked next nodes) (hk : k ∈ nodes)
    (outside : ∀ m ∈ n :: nodes, outer ≠ some m.addr) (hnext : next = some n.addr) :
    outer ≠ k.next := by
  induction nodes generalizing next n with
  | nil => cases hk
  | cons m nodes ih =>
      rcases List.mem_cons.mp hk with rfl | hk
      · rw [linked.1, hnext]
        exact outside n List.mem_cons_self
      · exact ih linked.2 hk (fun j hj => outside j (List.mem_cons_of_mem n hj)) rfl

/-- Dropping nodes along the backward walk without touching any `next` field
keeps the list linked both ways exactly when no kept node is older than a
dropped one. -/
theorem nextLinked_filter_iff {next : Option Nat} {nodes : List (Node α)} (keep : α → Bool)
    (linked : NextLinked next nodes) (hnodup : (nodes.map Node.addr).Nodup)
    (outside : ∀ n ∈ nodes, next ≠ some n.addr) :
    NextLinked next (nodes.filter fun n => keep n.data) ↔
      nodes.Pairwise fun newer older => keep older.data → keep newer.data := by
  induction nodes generalizing next with
  | nil => simp [NextLinked]
  | cons n nodes ih =>
      obtain ⟨hnext, hrest⟩ := linked
      obtain ⟨hn, hnodup⟩ := List.nodup_cons.mp hnodup
      have outside' : ∀ m ∈ nodes, some n.addr ≠ some m.addr := by
        intro m hm heq
        exact hn (Option.some.inj heq ▸ List.mem_map_of_mem hm)
      rw [List.pairwise_cons]
      cases hkeep : keep n.data with
      | true =>
          simp only [List.filter_cons, hkeep, if_true, NextLinked, hnext, true_and,
            ih hrest hnodup outside', implies_true]
      | false =>
          simp only [List.filter_cons, hkeep, Bool.false_eq_true, if_false, imp_false]
          constructor
          · -- a kept older node would have to point at the newer side of `n`
            intro hfilter
            have none_kept : ∀ m ∈ nodes, ¬ keep m.data = true := by
              cases hf : nodes.filter (fun n => keep n.data) with
              | nil => exact List.filter_eq_nil_iff.mp hf
              | cons k kept =>
                  have hk : k ∈ nodes := List.mem_of_mem_filter (hf ▸ List.mem_cons_self)
                  rw [hf] at hfilter
                  exact absurd hfilter.1.symm (next_ne hrest hk outside rfl)
            exact ⟨none_kept, List.pairwise_of_forall_mem_list fun a _ b hb hkb =>
              absurd hkb (none_kept b hb)⟩
          · rintro ⟨none_kept, -⟩
            rw [List.filter_eq_nil_iff.mpr none_kept]
            trivial

/-- A list as its owner holds it. -/
structure DList (α : Type) where
  heap : Heap α := {}
  latest : Option Nat := none
deriving DecidableEq, Repr

namespace DList

/-- The nodes reached backwards from `latest`, with their `next` fields. -/
def Reaches (s : DList α) (nodes : List (Node α)) : Prop := Chain s.heap s.latest nodes none

/-- Finite, live, and linked in both directions. -/
def WellLinked (s : DList α) : Prop := ∃ nodes, s.Reaches nodes ∧ NextLinked none nodes

/-- Append a new latest node, linking it with the former one. -/
def addLatest (s : DList α) (data : α) : Option (DList α) := do
  let node := s.heap.size
  let heap := s.heap.alloc ⟨data, none, none⟩
  match s.latest with
  | none => return ⟨heap, some node⟩
  | some l => do
      let heap ← heap.setNext l (some node)
      let heap ← heap.setPrevious node (some l)
      let heap ← heap.setNext node none
      return ⟨heap, some node⟩

/-- Walk backwards to the newest node that satisfies `found`. The walk takes at
most one step for each cell; running out of steps means that it is cyclic. -/
def findFrom (heap : Heap α) (found : α → Bool) : Nat → Option Nat → Option (Option Nat)
  | _, none => some none
  | 0, some _ => none
  | fuel + 1, some a => do
      let c ← heap.load a
      if found c.data then return some a
      findFrom heap found fuel c.previous

def find (s : DList α) (found : α → Bool) : Option (Option Nat) :=
  findFrom s.heap found s.heap.size s.latest

/-- Take one node out, repairing the links of both neighbours. Every field is
read again after each write, as a pointer program does. -/
def unlink (s : DList α) (a : Nat) : Option (DList α) := do
  let c ← s.heap.load a
  let heap ← s.heap.guardedSetNext c.previous c.next
  let c ← heap.load a
  let heap ← heap.guardedSetPrevious c.next c.previous
  let c ← heap.load a
  let latest := if s.latest = some a then c.previous else s.latest
  let heap ← heap.free a
  return ⟨heap, latest⟩

theorem findFrom_eq {heap : Heap α} {found : α → Bool} {p : Option Nat} {nodes : List (Node α)}
    (hc : Chain heap p nodes none) {fuel : Nat} (hfuel : nodes.length ≤ fuel) :
    findFrom heap found fuel p =
      some ((nodes.find? (fun n => found n.data)).map Node.addr) := by
  induction nodes generalizing p fuel with
  | nil =>
      obtain rfl : p = none := hc
      cases fuel <;> rfl
  | cons n nodes ih =>
      obtain ⟨rfl, prev, hload, hrest⟩ := hc
      cases fuel with
      | zero => exact absurd hfuel (Nat.not_succ_le_zero _)
      | succ fuel =>
          simp only [findFrom, hload, Option.bind_eq_bind, Option.bind_some]
          cases hfound : found n.data with
          | true => simp [hfound]
          | false => simpa [hfound] using ih hrest (Nat.le_of_succ_le_succ hfuel)

/-- The search never faults on a list that ends, and returns the newest match. -/
theorem find_eq {s : DList α} {nodes : List (Node α)} (hs : s.Reaches nodes) (found : α → Bool) :
    s.find found = some ((nodes.find? (fun n => found n.data)).map Node.addr) :=
  findFrom_eq hs hs.length_le_size

theorem addLatest_spec {s : DList α} {nodes : List (Node α)} (hs : s.Reaches nodes)
    (linked : NextLinked none nodes) (data : α) :
    ∃ s', s.addLatest data = some s' ∧
      s'.Reaches (⟨s.heap.size, data, none⟩ :: retarget (some s.heap.size) nodes) ∧
      NextLinked none (⟨s.heap.size, data, none⟩ :: retarget (some s.heap.size) nodes) := by
  cases nodes with
  | nil =>
      have hl : s.latest = none := hs
      refine ⟨⟨s.heap.alloc ⟨data, none, none⟩, some s.heap.size⟩, ?_, ?_, rfl, trivial⟩
      · simp only [addLatest, hl]
        rfl
      · exact ⟨rfl, none, Heap.load_alloc_self _ _, rfl⟩
  | cons n nodes =>
      have hnodup := Chain.nodup hs
      obtain ⟨hl, prev, hload, hrest⟩ := hs
      have hne : n.addr ≠ s.heap.size := Nat.ne_of_lt (Heap.lt_size_of_load hload)
      set h₀ := s.heap.alloc ⟨data, none, none⟩ with h₀_def
      have new₀ : h₀.load s.heap.size = some ⟨data, none, none⟩ := Heap.load_alloc_self _ _
      have old₀ : h₀.load n.addr = some ⟨n.data, prev, n.next⟩ :=
        Heap.load_alloc_of_load _ hload
      set h₁ := h₀.put n.addr (some ⟨n.data, prev, some s.heap.size⟩) with h₁_def
      have new₁ : h₁.load s.heap.size = some ⟨data, none, none⟩ := by
        rw [h₁_def, Heap.load_put old₀, if_neg hne.symm, new₀]
      set h₂ := h₁.put s.heap.size (some ⟨data, some n.addr, none⟩) with h₂_def
      have new₂ : h₂.load s.heap.size = some ⟨data, some n.addr, none⟩ := by
        rw [h₂_def, Heap.load_put new₁, if_pos rfl]
      set h₃ := h₂.put s.heap.size (some ⟨data, some n.addr, none⟩) with h₃_def
      have new₃ : h₃.load s.heap.size = some ⟨data, some n.addr, none⟩ := by
        rw [h₃_def, Heap.load_put new₂, if_pos rfl]
      have frame : ∀ b, b ≠ s.heap.size → h₃.load b = h₁.load b := by
        intro b hb
        rw [h₃_def, Heap.load_put new₂, if_neg hb, h₂_def, Heap.load_put new₁, if_neg hb]
      refine ⟨⟨h₃, some s.heap.size⟩, ?_, ⟨rfl, some n.addr, new₃, rfl, prev, ?_, ?_⟩,
        rfl, rfl, linked.2⟩
      · simp only [addLatest, hl, Heap.setNext, Heap.setPrevious, ← h₀_def, old₀, ← h₁_def,
          new₁, ← h₂_def, new₂, ← h₃_def, Option.map_some, Option.bind_eq_bind, Option.bind_some]
        rfl
      · rw [frame _ hne, h₁_def, Heap.load_put old₀, if_pos rfl]
      · refine Chain.frame hrest ?_
        intro m hm
        obtain ⟨mprev, hm'⟩ := hrest.live hm
        have hfresh : m.addr ≠ s.heap.size := Nat.ne_of_lt (Heap.lt_size_of_load hm')
        have hother : m.addr ≠ n.addr := by
          intro heq
          exact (List.nodup_cons.mp hnodup).1 (heq ▸ List.mem_map_of_mem hm)
        rw [frame _ hfresh, h₁_def, Heap.load_put old₀, if_neg hother, h₀_def,
          Heap.load_alloc_of_load _ hm', hm']

/-- Unlinking keeps the order of the remaining nodes; only the `next` field of
the node that was older than the removed one changes. -/
theorem unlink_spec {s : DList α} {xs ys : List (Node α)} {n : Node α}
    (hs : s.Reaches (xs ++ n :: ys)) (linked : NextLinked none (xs ++ n :: ys)) :
    ∃ s', s.unlink n.addr = some s' ∧ s'.Reaches (xs ++ retarget n.next ys) ∧
      NextLinked none (xs ++ retarget n.next ys) := by
  have hnodup := Chain.nodup hs
  simp only [List.map_append, List.map_cons, List.nodup_append, List.nodup_cons,
    List.mem_cons] at hnodup
  obtain ⟨nodupX, ⟨notInY, -⟩, apart⟩ := hnodup
  have notInX : n.addr ∉ xs.map Node.addr := fun hmem => apart _ hmem _ (.inl rfl) rfl
  obtain ⟨linkedX, hnext, linkedY⟩ := nextLinked_append.mp linked
  obtain ⟨m, hx, rfl, prev, hload, hy⟩ := Chain.append_iff.mp hs
  obtain ⟨h₁, set₁, hy₁, frame₁⟩ := hy.guardedSetNext n.next
  have load₁ : h₁.load n.addr = some ⟨n.data, prev, n.next⟩ := (frame₁ _ notInY).trans hload
  have hx₁ : Chain h₁ s.latest xs (some n.addr) := by
    refine hx.frame fun k hk => frame₁ _ fun hmem => ?_
    exact apart _ (List.mem_map_of_mem hk) _ (.inr hmem) rfl
  obtain ⟨h₂, set₂, hx₂, frame₂⟩ := hx₁.guardedSetPrevious nodupX prev
  rw [← hnext] at set₂
  have load₂ : h₂.load n.addr = some ⟨n.data, prev, n.next⟩ := (frame₂ _ notInX).trans load₁
  have addrsY : (retarget n.next ys).map Node.addr = ys.map Node.addr := by cases ys <;> rfl
  have hy₂ : Chain h₂ prev (retarget n.next ys) none := by
    refine hy₁.frame fun k hk => frame₂ _ fun hmem => ?_
    exact apart _ hmem _ (.inr (addrsY ▸ List.mem_map_of_mem hk)) rfl
  have hlatest := hx.start_eq notInX prev
  refine ⟨⟨h₂.put n.addr none, if xs = [] then prev else s.latest⟩, ?_, ?_, ?_⟩
  · simp only [unlink, hload, set₁, load₁, set₂, load₂, Heap.free, hlatest,
      Option.map_some, Option.bind_eq_bind, Option.bind_some]
    rfl
  · refine Chain.frame (Chain.append_iff.mpr ⟨prev, hx₂, hy₂⟩) fun k hk => ?_
    rw [Heap.load_put load₂, if_neg]
    intro heq
    cases List.mem_append.mp hk with
    | inl hk => exact notInX (heq ▸ List.mem_map_of_mem hk)
    | inr hk => exact notInY (addrsY ▸ heq ▸ List.mem_map_of_mem hk)
  · rw [hnext]
    exact nextLinked_append.mpr ⟨linkedX, linkedY.retarget⟩

end DList

end DoublyLinked
