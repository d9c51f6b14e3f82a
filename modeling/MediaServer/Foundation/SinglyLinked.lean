import Mathlib.Data.List.Nodup
import Mathlib.Data.List.Perm.Subperm

/-!
# Singly linked lists in an explicit heap

A list is held by its first node, and every node points to the next one. Cells are
addressed by numbers in the order of their allocation; an access to a freed cell is a
fault (`none`), so a proof that an operation returns is a proof of memory safety.

The operations walk with a pointer that trails one node behind. `Chain` describes what
such a walk has passed and what is left of it, and the lemmas say what one write does to
the segment that it hits.
-/

namespace SinglyLinked

variable {α : Type}

structure Cell (α : Type) where
  data : α
  next : Option Nat
deriving DecidableEq, Repr

structure Heap (α : Type) where
  slots : List (Option (Cell α)) := []
deriving DecidableEq, Repr

namespace Heap

def load (h : Heap α) (a : Nat) : Option (Cell α) := (h.slots[a]?).join

/-- The raw update. The other writes guard it by a load. -/
def put (h : Heap α) (a : Nat) (c : Option (Cell α)) : Heap α := ⟨h.slots.set a c⟩

def size (h : Heap α) : Nat := h.slots.length

def alloc (h : Heap α) (c : Cell α) : Heap α := ⟨h.slots ++ [some c]⟩

def setData (h : Heap α) (a : Nat) (data : α) : Option (Heap α) :=
  (h.load a).map fun c => h.put a (some { c with data })

def setNext (h : Heap α) (a : Nat) (next : Option Nat) : Option (Heap α) :=
  (h.load a).map fun c => h.put a (some { c with next })

def free (h : Heap α) (a : Nat) : Option (Heap α) := (h.load a).map fun _ => h.put a none

/-- `if (p) p->next = next`. -/
def guardedSetNext (h : Heap α) : Option Nat → Option Nat → Option (Heap α)
  | none, _ => some h
  | some a, next => h.setNext a next

theorem lt_size_of_load {h : Heap α} {a : Nat} {c : Cell α} (hc : h.load a = some c) :
    a < h.size := by
  by_contra hge
  have hnone : h.slots[a]? = none := List.getElem?_eq_none (Nat.le_of_not_lt hge)
  simp [load, hnone] at hc

theorem load_put {h : Heap α} {a : Nat} {c : Cell α} (live : h.load a = some c)
    (v : Option (Cell α)) (b : Nat) :
    (h.put a v).load b = if b = a then v else h.load b := by
  have hlt := lt_size_of_load live
  by_cases hb : b = a
  · subst hb
    simp only [load, put, if_pos]
    rw [List.getElem?_set_self hlt]
    rfl
  · simp only [load, put, if_neg hb]
    rw [List.getElem?_set_ne (Ne.symm hb)]

@[simp] theorem load_alloc_self (h : Heap α) (c : Cell α) : (h.alloc c).load h.size = some c := by
  simp [load, alloc, size]

theorem load_alloc (h : Heap α) (c : Cell α) (a : Nat) :
    (h.alloc c).load a = if a = h.size then some c else h.load a := by
  by_cases ha : a = h.size
  · rw [if_pos ha, ha, load_alloc_self]
  · rw [if_neg ha]
    simp only [load, alloc]
    by_cases hlt : a < h.slots.length
    · rw [List.getElem?_append_left hlt]
    · have hge : (h.slots ++ [some c]).length ≤ a := by
        rw [List.length_append, List.length_singleton]
        exact Nat.lt_of_le_of_ne (Nat.le_of_not_lt hlt) (Ne.symm ha)
      rw [List.getElem?_eq_none hge, List.getElem?_eq_none (Nat.le_of_not_lt hlt)]

theorem load_setNext {h h' : Heap α} {a : Nat} {next : Option Nat}
    (hset : h.setNext a next = some h') (b : Nat) :
    (h'.load b).isSome = (h.load b).isSome ∧ h'.size = h.size := by
  obtain ⟨c, hc, rfl⟩ := Option.map_eq_some_iff.mp hset
  refine ⟨?_, List.length_set⟩
  rw [load_put hc]
  split
  next heq => rw [heq, hc]; rfl
  next => rfl

theorem load_alloc_of_load {h : Heap α} {a : Nat} {c : Cell α} (new : Cell α)
    (hc : h.load a = some c) : (h.alloc new).load a = some c := by
  have hlt : a < h.slots.length := lt_size_of_load hc
  rw [← hc]
  simp only [load, alloc]
  rw [List.getElem?_append_left hlt]

end Heap

/-- A node as the walk sees it. -/
structure Node (α : Type) where
  addr : Nat
  data : α
deriving DecidableEq, Repr

/-- The walk from `p` meets exactly these live nodes and then arrives at `q`. -/
def Chain (h : Heap α) : Option Nat → List (Node α) → Option Nat → Prop
  | p, [], q => p = q
  | p, n :: rest, q =>
      p = some n.addr ∧ ∃ next, h.load n.addr = some ⟨n.data, next⟩ ∧ Chain h next rest q

/-- The address of the last node of a segment, or the given one if it is empty. -/
def lastAddr (default : Option Nat) : List (Node α) → Option Nat
  | [] => default
  | n :: rest => lastAddr (some n.addr) rest

@[simp] theorem lastAddr_concat (default : Option Nat) (xs : List (Node α)) (n : Node α) :
    lastAddr default (xs ++ [n]) = some n.addr := by
  induction xs generalizing default with
  | nil => rfl
  | cons m xs ih => exact ih (some m.addr)

namespace Chain

variable {h h' : Heap α} {p q : Option Nat} {xs ys nodes : List (Node α)}

theorem append_iff : Chain h p (xs ++ ys) q ↔ ∃ m, Chain h p xs m ∧ Chain h m ys q := by
  induction xs generalizing p with
  | nil =>
      constructor
      · exact fun hc => ⟨p, rfl, hc⟩
      · rintro ⟨m, rfl, hc⟩
        exact hc
  | cons n xs ih =>
      constructor
      · rintro ⟨hp, next, hload, hrest⟩
        obtain ⟨m, hx, hy⟩ := ih.mp hrest
        exact ⟨m, ⟨hp, next, hload, hx⟩, hy⟩
      · rintro ⟨m, ⟨hp, next, hload, hx⟩, hy⟩
        exact ⟨hp, next, hload, ih.mpr ⟨m, hx, hy⟩⟩

/-- Only the cells of the segment matter. -/
theorem frame (hc : Chain h p nodes q)
    (same : ∀ n ∈ nodes, h'.load n.addr = h.load n.addr) : Chain h' p nodes q := by
  induction nodes generalizing p with
  | nil => exact hc
  | cons n nodes ih =>
      obtain ⟨hp, next, hload, hrest⟩ := hc
      refine ⟨hp, next, (same n List.mem_cons_self).trans hload, ih hrest ?_⟩
      exact fun m hm => same m (List.mem_cons_of_mem n hm)

theorem live (hc : Chain h p nodes q) {n : Node α} (hn : n ∈ nodes) :
    ∃ next, h.load n.addr = some ⟨n.data, next⟩ := by
  induction nodes generalizing p with
  | nil => cases hn
  | cons m nodes ih =>
      obtain ⟨-, next, hload, hrest⟩ := hc
      cases List.mem_cons.mp hn with
      | inl heq => exact ⟨next, heq ▸ hload⟩
      | inr hn => exact ih hrest hn

/-- A walk that ends is determined by the heap and its start. -/
theorem unique (hx : Chain h p xs none) (hy : Chain h p ys none) : xs = ys := by
  induction xs generalizing p ys with
  | nil =>
      obtain rfl : p = none := hx
      cases ys with
      | nil => rfl
      | cons n ys => exact nomatch hy.1
  | cons n xs ih =>
      obtain ⟨rfl, next, hload, hrest⟩ := hx
      cases ys with
      | nil => exact nomatch (show some n.addr = none from hy)
      | cons m ys =>
          obtain ⟨haddr, next', hload', hrest'⟩ := hy
          obtain ⟨a, data⟩ := n
          obtain ⟨b, data'⟩ := m
          obtain rfl : a = b := Option.some.inj haddr
          obtain ⟨rfl, rfl⟩ := Cell.mk.inj (Option.some.inj (hload.symm.trans hload'))
          rw [ih hrest hrest']

/-- No node is met twice: meeting one again would start the same infinite walk. -/
theorem nodup (hc : Chain h p nodes none) : (nodes.map Node.addr).Nodup := by
  induction nodes generalizing p with
  | nil => exact List.nodup_nil
  | cons n nodes ih =>
      have hrest := hc
      obtain ⟨rfl, next, -, htail⟩ := hrest
      refine List.nodup_cons.mpr ⟨?_, ih htail⟩
      intro hmem
      obtain ⟨m, hm, haddr⟩ := List.mem_map.mp hmem
      obtain ⟨front, back, rfl⟩ := List.append_of_mem hm
      obtain ⟨middle, -, hsuffix⟩ := append_iff.mp htail
      have hstart : middle = some n.addr := by rw [hsuffix.1, haddr]
      have hlength := congrArg List.length (unique hc (hstart ▸ hsuffix))
      simp only [List.length_cons, List.length_append] at hlength
      omega

theorem length_le_size (hc : Chain h p nodes none) : nodes.length ≤ h.size := by
  have hsub : nodes.map Node.addr ⊆ List.range h.size := by
    intro a ha
    obtain ⟨n, hn, rfl⟩ := List.mem_map.mp ha
    obtain ⟨next, hload⟩ := hc.live hn
    exact List.mem_range.mpr (Heap.lt_size_of_load hload)
  simpa using (List.subperm_of_subset hc.nodup hsub).length_le

/-- A new cell is none of those that the list has. -/
theorem alloc (hc : Chain h p nodes q) (c : Cell α) : Chain (h.alloc c) p nodes q := by
  refine hc.frame fun n hn => ?_
  obtain ⟨next, hload⟩ := hc.live hn
  rw [Heap.load_alloc_of_load c hload, hload]

/-- Writing the last node's `next` field moves the end of the segment. An empty segment
has no such node, and then its start is its new end. -/
theorem guardedSetNext (hc : Chain h p xs q) (hnodup : (xs.map Node.addr).Nodup)
    (q' : Option Nat) :
    ∃ h', h.guardedSetNext (lastAddr none xs) q' = some h' ∧
      Chain h' (if xs = [] then q' else p) xs q' ∧
      ∀ a, a ∉ xs.map Node.addr → h'.load a = h.load a := by
  cases List.eq_nil_or_concat' xs with
  | inl hnil =>
      subst hnil
      exact ⟨h, rfl, rfl, fun _ _ => rfl⟩
  | inr hconcat =>
      obtain ⟨front, n, rfl⟩ := hconcat
      obtain ⟨m, hfront, hm, next, hload, -⟩ := append_iff.mp hc
      have hdisjoint : n.addr ∉ front.map Node.addr := by
        rw [List.map_append, List.nodup_append] at hnodup
        exact fun hmem => hnodup.2.2 n.addr hmem n.addr (by simp) rfl
      refine ⟨h.put n.addr (some ⟨n.data, q'⟩), ?_, ?_, ?_⟩
      · simp [Heap.guardedSetNext, Heap.setNext, hload]
      · rw [if_neg (by simp)]
        refine append_iff.mpr ⟨m, hfront.frame fun k hk => ?_, hm, q', ?_, rfl⟩
        · have hother : k.addr ≠ n.addr := by
            intro heq
            exact hdisjoint (heq ▸ List.mem_map_of_mem hk)
          rw [Heap.load_put hload, if_neg hother]
        · rw [Heap.load_put hload, if_pos rfl]
      · intro a ha
        rw [Heap.load_put hload, if_neg (fun heq => ha (by simp [heq]))]

/-- Whether the walk starts at the node behind a segment is whether the segment is
empty. -/
theorem start_eq {a : Nat} (hc : Chain h p xs (some a)) (fresh : a ∉ xs.map Node.addr)
    (q' : Option Nat) : (if p = some a then q' else p) = if xs = [] then q' else p := by
  cases xs with
  | nil =>
      obtain rfl : p = some a := hc
      simp
  | cons n xs =>
      have hother : n.addr ≠ a := fun heq => fresh (by simp [heq])
      simp [hc.1, hother]

end Chain

/-- Every live cell is that of one of the nodes. -/
def Covers (h : Heap α) (nodes : List (Node α)) : Prop :=
  ∀ a, (h.load a).isSome → a ∈ nodes.map Node.addr

/-- Free the nodes from `p` on. The pointer goes on to what a node has named before it is
freed. -/
def freeFrom : Nat → Heap α → Option Nat → Option (Heap α)
  | _, h, none => some h
  | 0, _, some _ => none
  | fuel + 1, h, some cur => do
      let c ← h.load cur
      let h ← h.free cur
      freeFrom fuel h c.next

theorem freeFrom_spec {h : Heap α} {p : Option Nat} {nodes : List (Node α)}
    (hc : Chain h p nodes none) {fuel : Nat} (hfuel : nodes.length ≤ fuel) :
    ∃ h', freeFrom fuel h p = some h' ∧
      ∀ a, h'.load a = if a ∈ nodes.map Node.addr then none else h.load a := by
  induction nodes generalizing h p fuel with
  | nil =>
      obtain rfl : p = none := hc
      exact ⟨h, by cases fuel <;> rfl, fun a => rfl⟩
  | cons n nodes ih =>
      have hnodup := hc.nodup
      rw [List.map_cons, List.nodup_cons] at hnodup
      obtain ⟨rfl, next, hload, hrest⟩ := hc
      cases fuel with
      | zero => exact absurd hfuel (Nat.not_succ_le_zero _)
      | succ fuel =>
          have hkept : Chain (h.put n.addr none) next nodes none := by
            refine hrest.frame fun m hm => ?_
            rw [Heap.load_put hload, if_neg]
            exact fun heq => hnodup.1 (heq ▸ List.mem_map_of_mem hm)
          obtain ⟨h', hfree, hloads⟩ := ih hkept (Nat.le_of_succ_le_succ hfuel)
          refine ⟨h', ?_, fun a => ?_⟩
          · simp only [freeFrom, Heap.free, hload, Option.bind_eq_bind, Option.bind_some,
              Option.map_some]
            exact hfree
          · rw [hloads, Heap.load_put hload, List.map_cons]
            by_cases ha : a = n.addr
            · simp [ha]
            · simp [ha]

/-- What is covered is gone. -/
theorem freeFrom_covers {h : Heap α} {p : Option Nat} {nodes : List (Node α)}
    (hc : Chain h p nodes none) (hcovers : Covers h nodes) {fuel : Nat}
    (hfuel : nodes.length ≤ fuel) :
    ∃ h', freeFrom fuel h p = some h' ∧ ∀ a, h'.load a = none := by
  obtain ⟨h', hfree, hloads⟩ := freeFrom_spec hc hfuel
  refine ⟨h', hfree, fun a => ?_⟩
  rw [hloads]
  split
  next => rfl
  next hout => exact Option.not_isSome_iff_eq_none.mp fun hsome => hout (hcovers a hsome)

/-- A list as its owner holds it. -/
structure SList (α : Type) where
  heap : Heap α := {}
  first : Option Nat := none
deriving DecidableEq, Repr

namespace SList

variable {s : SList α} {xs ys nodes : List (Node α)}

def Reaches (s : SList α) (nodes : List (Node α)) : Prop := Chain s.heap s.first nodes none

/-- Walk to the first node that satisfies `found`, with a pointer behind. The walk takes at
most one step for each cell; running out of steps means that it is cyclic. -/
def findFrom (heap : Heap α) (found : α → Bool) :
    Nat → Option Nat → Option Nat → Option (Option Nat × Option Nat)
  | _, prv, none => some (prv, none)
  | 0, _, some _ => none
  | fuel + 1, prv, some cur => do
      let c ← heap.load cur
      if found c.data then return (prv, some cur)
      findFrom heap found fuel (some cur) c.next

/-- The node found, if any, and the one before it, which is the last node if none is
found. -/
def find (s : SList α) (found : α → Bool) : Option (Option Nat × Option Nat) :=
  findFrom s.heap found s.heap.size none s.first

/-- Hang a new node behind `prv`, or make it the first one. -/
def append (s : SList α) (prv : Option Nat) (data : α) : Option (SList α) := do
  let node := s.heap.size
  let heap := s.heap.alloc ⟨data, none⟩
  match s.first with
  | none => return ⟨heap, some node⟩
  | some first => do
      let prv ← prv
      let heap ← heap.setNext prv (some node)
      return ⟨heap, some first⟩

/-- Take the first node out. Its cell stays allocated. -/
def dropFirst (s : SList α) : Option (SList α) := do
  let first ← s.first
  let c ← s.heap.load first
  return { s with first := c.next }

/-- Take a node out from behind `prv` and free it. -/
def unlink (s : SList α) (prv : Option Nat) (a : Nat) : Option (SList α) := do
  let c ← s.heap.load a
  let heap ← s.heap.guardedSetNext prv c.next
  let heap ← heap.free a
  return { s with heap }

def setData (s : SList α) (a : Nat) (data : α) : Option (SList α) := do
  let heap ← s.heap.setData a data
  return { s with heap }

/-- One pass that takes out and frees every node that satisfies `found`. Fields are read
again after each write, as a pointer program does. -/
def removeAllFrom (found : α → Bool) : Nat → SList α → Option Nat → Option Nat → Option (SList α)
  | _, s, _, none => some s
  | 0, _, _, some _ => none
  | fuel + 1, s, prv, some cur => do
      let c ← s.heap.load cur
      if found c.data then
        let heap ← s.heap.guardedSetNext prv c.next
        let c ← heap.load cur
        let first := if s.first = some cur then c.next else s.first
        let heap ← heap.free cur
        removeAllFrom found fuel ⟨heap, first⟩ prv c.next
      else
        removeAllFrom found fuel s (some cur) c.next

def removeAll (s : SList α) (found : α → Bool) : Option (SList α) :=
  removeAllFrom found s.heap.size s none s.first

theorem findFrom_of_none {heap : Heap α} {found : α → Bool} {p : Option Nat} (prv : Option Nat)
    (hc : Chain heap p nodes none) (hnone : ∀ n ∈ nodes, found n.data = false) {fuel : Nat}
    (hfuel : nodes.length ≤ fuel) :
    findFrom heap found fuel prv p = some (lastAddr prv nodes, none) := by
  induction nodes generalizing p prv fuel with
  | nil =>
      obtain rfl : p = none := hc
      cases fuel <;> rfl
  | cons n nodes ih =>
      obtain ⟨rfl, next, hload, hrest⟩ := hc
      cases fuel with
      | zero => exact absurd hfuel (Nat.not_succ_le_zero _)
      | succ fuel =>
          have hn := hnone n List.mem_cons_self
          have hstep := ih (some n.addr) hrest
            (fun m hm => hnone m (List.mem_cons_of_mem n hm)) (Nat.le_of_succ_le_succ hfuel)
          simpa [findFrom, hload, hn, lastAddr] using hstep

theorem findFrom_of_first {heap : Heap α} {found : α → Bool} {p : Option Nat} {n : Node α}
    (prv : Option Nat) (hc : Chain heap p (xs ++ n :: ys) none)
    (hnone : ∀ m ∈ xs, found m.data = false) (hn : found n.data = true) {fuel : Nat} (hfuel : (xs ++ n :: ys).length ≤ fuel) :
    findFrom heap found fuel prv p = some (lastAddr prv xs, some n.addr) := by
  induction xs generalizing p prv fuel with
  | nil =>
      obtain ⟨rfl, next, hload, -⟩ := hc
      cases fuel with
      | zero => exact absurd hfuel (Nat.not_succ_le_zero _)
      | succ fuel => simp [findFrom, hload, hn, lastAddr]
  | cons m xs ih =>
      obtain ⟨rfl, next, hload, hrest⟩ := hc
      cases fuel with
      | zero => exact absurd hfuel (Nat.not_succ_le_zero _)
      | succ fuel =>
          have hm := hnone m List.mem_cons_self
          have hstep := ih (some m.addr) hrest
            (fun k hk => hnone k (List.mem_cons_of_mem m hk)) (Nat.le_of_succ_le_succ hfuel)
          simpa [findFrom, hload, hm, lastAddr] using hstep

theorem find_of_none (found : α → Bool) (hs : s.Reaches nodes)
    (hnone : ∀ n ∈ nodes, found n.data = false) :
    s.find found = some (lastAddr none nodes, none) :=
  findFrom_of_none none hs hnone hs.length_le_size

theorem find_of_first (found : α → Bool) {n : Node α} (hs : s.Reaches (xs ++ n :: ys))
    (hnone : ∀ m ∈ xs, found m.data = false) (hn : found n.data = true) :
    s.find found = some (lastAddr none xs, some n.addr) :=
  findFrom_of_first none hs hnone hn hs.length_le_size

/-- A node is appended behind the last one. -/
theorem append_spec (hs : s.Reaches nodes) (data : α) :
    ∃ s', s.append (lastAddr none nodes) data = some s' ∧
      s'.Reaches (nodes ++ [⟨s.heap.size, data⟩]) := by
  set h₀ := s.heap.alloc ⟨data, none⟩ with h₀_def
  have new₀ : h₀.load s.heap.size = some ⟨data, none⟩ := Heap.load_alloc_self _ _
  have hold : Chain h₀ s.first nodes none := Chain.alloc hs ⟨data, none⟩
  obtain ⟨h₁, hset, hmoved, hframe⟩ := hold.guardedSetNext (Chain.nodup hs) (some s.heap.size)
  have hfresh : s.heap.size ∉ nodes.map Node.addr := by
    intro hmem
    obtain ⟨n, hn, haddr⟩ := List.mem_map.mp hmem
    obtain ⟨next, hload⟩ := Chain.live hs hn
    exact Nat.ne_of_lt (Heap.lt_size_of_load hload) haddr
  have new₁ : h₁.load s.heap.size = some ⟨data, none⟩ := (hframe _ hfresh).trans new₀
  have hreaches : Chain h₁ (if nodes = [] then some s.heap.size else s.first)
      (nodes ++ [⟨s.heap.size, data⟩]) none :=
    Chain.append_iff.mpr ⟨_, hmoved, rfl, none, new₁, rfl⟩
  cases List.eq_nil_or_concat' nodes with
  | inl hnil =>
      subst hnil
      have hfirst : s.first = none := hs
      obtain rfl : h₀ = h₁ := Option.some.inj hset
      refine ⟨⟨h₀, some s.heap.size⟩, ?_, hreaches⟩
      simp only [append, hfirst]
      rfl
  | inr hconcat =>
      obtain ⟨front, n, rfl⟩ := hconcat
      rw [if_neg (by simp)] at hreaches
      obtain ⟨first, hfirst⟩ : ∃ first, s.first = some first := by
        cases front with
        | nil => exact ⟨_, hs.1⟩
        | cons m front => exact ⟨_, hs.1⟩
      refine ⟨⟨h₁, s.first⟩, ?_, hreaches⟩
      rw [lastAddr_concat] at hset ⊢
      simp only [append, hfirst, Option.bind_eq_bind, Option.bind_some, ← h₀_def]
      rw [show h₀.setNext n.addr (some s.heap.size) = some h₁ from hset]
      rfl

theorem size_append {prv : Option Nat} {data : α} {s' : SList α}
    (h : s.append prv data = some s') : s'.heap.size = s.heap.size + 1 := by
  have halloc : (s.heap.alloc ⟨data, none⟩).size = s.heap.size + 1 := List.length_append
  rw [append] at h
  cases hfirst : s.first with
  | none =>
      rw [hfirst] at h
      obtain rfl := Option.some.inj h
      exact halloc
  | some first =>
      rw [hfirst] at h
      obtain ⟨a, -, h⟩ := Option.bind_eq_some_iff.mp h
      obtain ⟨heap, hset, h⟩ := Option.bind_eq_some_iff.mp h
      obtain rfl := Option.some.inj h
      exact (Heap.load_setNext hset 0).2.trans halloc

/-- Only the new cell is added. -/
theorem covers_append {prv : Option Nat} {data : α} {s' : SList α} (hcovers : Covers s.heap nodes)
    (h : s.append prv data = some s') : Covers s'.heap (nodes ++ [⟨s.heap.size, data⟩]) := by
  have halloc : Covers (s.heap.alloc ⟨data, none⟩) (nodes ++ [⟨s.heap.size, data⟩]) := by
    intro a ha
    rw [List.map_append, List.mem_append]
    rw [Heap.load_alloc] at ha
    split at ha
    next heq => exact .inr (List.mem_singleton.mpr heq)
    next => exact .inl (hcovers a ha)
  rw [SList.append] at h
  cases hfirst : s.first with
  | none =>
      rw [hfirst] at h
      obtain rfl := Option.some.inj h
      exact halloc
  | some first =>
      rw [hfirst] at h
      obtain ⟨a, -, h⟩ := Option.bind_eq_some_iff.mp h
      obtain ⟨heap, hset, h⟩ := Option.bind_eq_some_iff.mp h
      obtain rfl := Option.some.inj h
      intro b hb
      exact halloc b ((Heap.load_setNext hset b).1 ▸ hb)

theorem dropFirst_spec {n : Node α} (hs : s.Reaches (n :: nodes)) :
    ∃ s', s.dropFirst = some s' ∧ s'.Reaches nodes := by
  obtain ⟨hfirst, next, hload, hrest⟩ := hs
  refine ⟨{ s with first := next }, ?_, hrest⟩
  simp [dropFirst, hfirst, hload]

theorem setData_spec {n : Node α} (hs : s.Reaches (xs ++ n :: ys)) (data : α) :
    ∃ s', s.setData n.addr data = some s' ∧ s'.Reaches (xs ++ { n with data } :: ys) := by
  have hnodup := Chain.nodup hs
  simp only [List.map_append, List.map_cons, List.nodup_append, List.nodup_cons,
    List.mem_cons] at hnodup
  obtain ⟨-, ⟨notInY, -⟩, apart⟩ := hnodup
  obtain ⟨m, hx, rfl, next, hload, hy⟩ := Chain.append_iff.mp hs
  have frame : ∀ k : Node α, k.addr ≠ n.addr →
      (s.heap.put n.addr (some ⟨data, next⟩)).load k.addr = s.heap.load k.addr := by
    intro k hk
    rw [Heap.load_put hload, if_neg hk]
  refine ⟨{ s with heap := s.heap.put n.addr (some ⟨data, next⟩) }, ?_,
    Chain.append_iff.mpr ⟨_, hx.frame fun k hk => frame k fun heq => ?_, rfl, next, ?_,
      hy.frame fun k hk => frame k fun heq => ?_⟩⟩
  · simp [setData, Heap.setData, hload]
  · exact apart _ (List.mem_map_of_mem hk) _ (.inl heq) rfl
  · rw [Heap.load_put hload, if_pos rfl]
  · exact notInY (heq ▸ List.mem_map_of_mem hk)

/-- What is left of a chain when the node behind `xs` is bypassed and freed. -/
theorem bypass {heap : Heap α} {first : Option Nat} {n : Node α}
    (hc : Chain heap first (xs ++ n :: ys) none) :
    ∃ next heap', heap.load n.addr = some ⟨n.data, next⟩ ∧
      heap.guardedSetNext (lastAddr none xs) next = some heap' ∧
      heap'.load n.addr = some ⟨n.data, next⟩ ∧
      Chain (heap'.put n.addr none) (if xs = [] then next else first) xs next ∧
      Chain (heap'.put n.addr none) next ys none := by
  have hnodup := Chain.nodup hc
  simp only [List.map_append, List.map_cons, List.nodup_append, List.nodup_cons,
    List.mem_cons] at hnodup
  obtain ⟨nodupX, ⟨notInY, -⟩, apart⟩ := hnodup
  have notInX : n.addr ∉ xs.map Node.addr := fun hmem => apart _ hmem _ (.inl rfl) rfl
  obtain ⟨m, hx, rfl, next, hload, hy⟩ := Chain.append_iff.mp hc
  obtain ⟨heap', hset, hx', frame⟩ := hx.guardedSetNext nodupX next
  have hload' : heap'.load n.addr = some ⟨n.data, next⟩ := (frame _ notInX).trans hload
  refine ⟨next, heap', hload, hset, hload', hx'.frame fun k hk => ?_, hy.frame fun k hk => ?_⟩
  · have hother : k.addr ≠ n.addr := fun heq => notInX (heq ▸ List.mem_map_of_mem hk)
    rw [Heap.load_put hload', if_neg hother]
  · have hother : k.addr ≠ n.addr := fun heq => notInY (heq ▸ List.mem_map_of_mem hk)
    rw [Heap.load_put hload', if_neg hother]
    exact frame _ fun hmem => apart _ hmem _ (.inr (List.mem_map_of_mem hk)) rfl

/-- A node that is not the first one is taken out. -/
theorem unlink_spec {n : Node α} (hs : s.Reaches (xs ++ n :: ys)) (hxs : xs ≠ []) :
    ∃ s', s.unlink (lastAddr none xs) n.addr = some s' ∧ s'.Reaches (xs ++ ys) := by
  obtain ⟨next, heap', hload, hset, hload', hx, hy⟩ := bypass hs
  rw [if_neg hxs] at hx
  refine ⟨{ s with heap := heap'.put n.addr none }, ?_, Chain.append_iff.mpr ⟨next, hx, hy⟩⟩
  simp [unlink, hload, hset, Heap.free, hload']

/-- The pass never faults and leaves the other nodes in their order. -/
theorem removeAllFrom_spec {found : α → Bool} {kept rest : List (Node α)} {cur : Option Nat}
    (hkept : Chain s.heap s.first kept cur) (hrest : Chain s.heap cur rest none) {fuel : Nat}
    (hfuel : rest.length ≤ fuel) :
    ∃ s', removeAllFrom found fuel s (lastAddr none kept) cur = some s' ∧
      s'.Reaches (kept ++ rest.filter fun n => !found n.data) := by
  induction rest generalizing s kept cur fuel with
  | nil =>
      obtain rfl : cur = none := hrest
      refine ⟨s, by cases fuel <;> rfl, ?_⟩
      simpa [Reaches] using hkept
  | cons n rest ih =>
      have hall : Chain s.heap s.first (kept ++ n :: rest) none :=
        Chain.append_iff.mpr ⟨cur, hkept, hrest⟩
      obtain ⟨rfl, next, hload, htail⟩ := hrest
      cases fuel with
      | zero => exact absurd hfuel (Nat.not_succ_le_zero _)
      | succ fuel =>
          have hfuel := Nat.le_of_succ_le_succ hfuel
          cases hfound : found n.data with
          | false =>
              have hkept' : Chain s.heap s.first (kept ++ [n]) next :=
                Chain.append_iff.mpr ⟨_, hkept, rfl, next, hload, rfl⟩
              obtain ⟨s', hloop, reaches⟩ := ih hkept' htail hfuel
              refine ⟨s', ?_, ?_⟩
              · simpa [removeAllFrom, hload, hfound] using hloop
              · simpa [hfound] using reaches
          | true =>
              have notInKept : n.addr ∉ kept.map Node.addr := by
                have hnodup := Chain.nodup hall
                rw [List.map_append, List.nodup_append] at hnodup
                exact fun hmem => hnodup.2.2 _ hmem n.addr (by simp) rfl
              obtain ⟨next', heap', hload', hset, hafter, hx, hy⟩ := bypass hall
              obtain rfl : next = next' :=
                (Cell.mk.inj (Option.some.inj (hload.symm.trans hload'))).2
              obtain ⟨s', hloop, reaches⟩ := ih
                (s := ⟨heap'.put n.addr none, if kept = [] then next else s.first⟩) hx hy hfuel
              refine ⟨s', ?_, ?_⟩
              · simpa [removeAllFrom, hload, hfound, hset, hafter, Heap.free,
                  hkept.start_eq notInKept next] using hloop
              · simpa [hfound] using reaches

theorem removeAll_spec (hs : s.Reaches nodes) (found : α → Bool) :
    ∃ s', s.removeAll found = some s' ∧ s'.Reaches (nodes.filter fun n => !found n.data) :=
  removeAllFrom_spec (show Chain s.heap s.first [] s.first from rfl) hs hs.length_le_size

end SList

end SinglyLinked
