import MediaServer.Foundation.Run
import Mathlib.Data.List.Perm.Subperm

/-!
# Requests and answers over datagrams

Each call opens a socket of its own, sends one request from the port that the socket gets,
and takes the first datagram that arrives there for the answer. The server works on one
request at a time and answers to the port that the request came from. Datagrams get lost, a
call may give up, a process may end, and a port that nobody has open is given out again.

Nothing in an answer tells which request it is about. A packet carries the number of the
call that it goes back to, which no step reads.
-/

namespace Exchange

universe u

/-- What the calls send and what the server does. -/
structure System (κ σ R A ξ β : Type u) where
  /-- The request of a call, if it gets as far as sending one. -/
  send : κ → Option R
  /-- The server turns to a request; `none` while it works on another. -/
  serve : σ → ξ → R → Option σ
  /-- One step of the server, with the answer when the work on the request is done. -/
  work : σ → β → Option (σ × Option A)

structure Packet (α : Type u) where
  call : Nat
  port : Nat
  body : α
deriving DecidableEq, Repr

inductive Stage (A : Type u) where
  | waiting
  /-- It has given up, and its socket stays open. -/
  | abandoned
  /-- It has taken the answer to the request of this call, and closed its socket. -/
  | answered (about : Nat) (a : A)
  /-- Its process has ended before. -/
  | dead
deriving DecidableEq, Repr

def Stage.isOpen {A : Type u} : Stage A → Bool
  | .waiting | .abandoned => true
  | .answered .. | .dead => false

structure Call (R A : Type u) where
  owner : Nat
  port : Nat
  request : R
  stage : Stage A := .waiting
  /-- What has arrived at its socket. -/
  buffer : List (Packet A) := []
deriving DecidableEq, Repr

namespace Call

variable {R A : Type u}

def deliver (p : Packet A) (c : Call R A) : Call R A :=
  if c.stage.isOpen ∧ c.port = p.port then { c with buffer := c.buffer ++ [p] } else c

/-- The process ends. -/
def exit (c : Call R A) : Call R A :=
  if c.stage.isOpen then { c with stage := .dead, buffer := [] } else c

end Call

/-- The number of a call is its place in `calls`. The last two fields are read by no step:
the calls whose requests the server has turned to, and its answers, both in order. -/
structure State (σ R A : Type u) where
  server : σ
  calls : List (Call R A) := []
  inbox : List (Packet R) := []
  serving : Option (Packet R) := none
  /-- Answers on their way. -/
  outbox : List (Packet A) := []
  taken : List Nat := []
  answers : List (Nat × A) := []
deriving DecidableEq, Repr

inductive Label (κ ξ β : Type u) where
  /-- A process makes a call, and its socket gets this port. -/
  | call (owner port : Nat) (args : κ)
  | take (x : ξ)
  /-- A step of the server, and whether it gets rid of an answer. -/
  | work (b : β) (sent : Bool)
  | arrive (index : Nat)
  | loseRequest (index : Nat)
  | loseAnswer (index : Nat)
  | read (i : Nat)
  | abandon (i : Nat)
  /-- A process ends. -/
  | exit (owner : Nat)
deriving DecidableEq, Repr

section Steps

variable {κ σ R A ξ β : Type u}

namespace State

/-- The port belongs to an open socket. -/
def InUse (s : State σ R A) (port : Nat) : Prop :=
  ∃ c ∈ s.calls, c.stage.isOpen = true ∧ c.port = port

instance (s : State σ R A) : DecidablePred s.InUse := fun port =>
  inferInstanceAs (Decidable (∃ c ∈ s.calls, c.stage.isOpen = true ∧ c.port = port))

/-- The call has an open socket with the port. -/
def Opens (s : State σ R A) (i port : Nat) : Prop :=
  ∃ c, s.calls[i]? = some c ∧ c.stage.isOpen = true ∧ c.port = port

/-- A new call sends its request. -/
def dial (s : State σ R A) (owner port : Nat) (request : R) : State σ R A :=
  { s with
    calls := s.calls ++ [{ owner, port, request }]
    inbox := s.inbox ++ [⟨s.calls.length, port, request⟩] }

def answer (s : State σ R A) (server : σ) (p : Packet R) (a : A) (sent : Bool) : State σ R A :=
  { s with
    server
    serving := none
    outbox := s.outbox ++ if sent then [⟨p.call, p.port, a⟩] else []
    answers := s.answers ++ [(p.call, a)] }

/-- The calls that a request, or the answer to one, is on its way for, with their ports. -/
def pending (s : State σ R A) : List (Nat × Nat) :=
  s.inbox.map (fun p => (p.call, p.port)) ++ s.serving.toList.map (fun p => (p.call, p.port)) ++
    s.outbox.map (fun p => (p.call, p.port))

end State

def exchangeStep (sys : System κ σ R A ξ β) (s : State σ R A) :
    Label κ ξ β → Option (State σ R A)
  | .call owner port args =>
      match sys.send args with
      | none => none
      | some request =>
          if s.InUse port then none
          else some (s.dial owner port request)
  | .take x =>
      match s.serving, s.inbox with
      | none, p :: inbox =>
          (sys.serve s.server x p.body).map fun server =>
            { s with server, inbox, serving := some p, taken := s.taken ++ [p.call] }
      | _, _ => none
  | .work b sent =>
      match sys.work s.server b with
      | none => none
      | some (server, none) => some { s with server }
      | some (server, some a) => s.serving.map fun p => s.answer server p a sent
  | .arrive index =>
      s.outbox[index]?.map fun p =>
        { s with outbox := s.outbox.eraseIdx index, calls := s.calls.map (Call.deliver p) }
  | .loseRequest index => some { s with inbox := s.inbox.eraseIdx index }
  | .loseAnswer index => some { s with outbox := s.outbox.eraseIdx index }
  | .read i =>
      match s.calls[i]? with
      | none => none
      | some c =>
          match c.stage, c.buffer with
          | .waiting, p :: _ =>
              some
                { s with
                  calls := s.calls.set i { c with stage := .answered p.call p.body, buffer := [] } }
          | _, _ => none
  | .abandon i =>
      match s.calls[i]? with
      | none => none
      | some c =>
          match c.stage with
          | .waiting => some { s with calls := s.calls.set i { c with stage := .abandoned } }
          | _ => none
  | .exit owner =>
      some { s with calls := s.calls.map fun c => if c.owner = owner then c.exit else c }

/-- Everything a step can do, with the guards it has passed. -/
inductive Stepped (sys : System κ σ R A ξ β) (s : State σ R A) :
    Label κ ξ β → State σ R A → Prop where
  | call (owner port : Nat) (args : κ) (request : R) : sys.send args = some request →
      ¬ s.InUse port → Stepped sys s (.call owner port args) (s.dial owner port request)
  | take (x : ξ) (p : Packet R) (inbox : List (Packet R)) (server : σ) : s.serving = none →
      s.inbox = p :: inbox → sys.serve s.server x p.body = some server →
      Stepped sys s (.take x)
        { s with server, inbox, serving := some p, taken := s.taken ++ [p.call] }
  | move (b : β) (sent : Bool) (server : σ) : sys.work s.server b = some (server, none) →
      Stepped sys s (.work b sent) { s with server }
  | reply (b : β) (sent : Bool) (server : σ) (p : Packet R) (a : A) :
      sys.work s.server b = some (server, some a) → s.serving = some p →
      Stepped sys s (.work b sent) (s.answer server p a sent)
  | arrive (index : Nat) (p : Packet A) : s.outbox[index]? = some p →
      Stepped sys s (.arrive index)
        { s with outbox := s.outbox.eraseIdx index, calls := s.calls.map (Call.deliver p) }
  | loseRequest (index : Nat) :
      Stepped sys s (.loseRequest index) { s with inbox := s.inbox.eraseIdx index }
  | loseAnswer (index : Nat) :
      Stepped sys s (.loseAnswer index) { s with outbox := s.outbox.eraseIdx index }
  | read (i : Nat) (c : Call R A) (p : Packet A) (rest : List (Packet A)) :
      s.calls[i]? = some c → c.stage = .waiting → c.buffer = p :: rest →
      Stepped sys s (.read i)
        { s with calls := s.calls.set i { c with stage := .answered p.call p.body, buffer := [] } }
  | abandon (i : Nat) (c : Call R A) : s.calls[i]? = some c → c.stage = .waiting →
      Stepped sys s (.abandon i) { s with calls := s.calls.set i { c with stage := .abandoned } }
  | exit (owner : Nat) :
      Stepped sys s (.exit owner)
        { s with calls := s.calls.map fun c => if c.owner = owner then c.exit else c }

variable {sys : System κ σ R A ξ β} {s t : State σ R A} {l : Label κ ξ β}

theorem exchangeStep_cases (h : exchangeStep sys s l = some t) : Stepped sys s l t := by
  cases l with
  | call owner port args =>
      simp only [exchangeStep] at h
      split at h
      next => cases h
      next request hsend =>
        obtain ⟨hport, h⟩ := Option.ite_none_left_eq_some.mp h
        exact Option.some.inj h ▸ .call owner port args request hsend hport
  | take x =>
      simp only [exchangeStep] at h
      split at h
      next p inbox hserving hinbox =>
        obtain ⟨server, hserve, rfl⟩ := Option.map_eq_some_iff.mp h
        exact .take x p inbox server hserving hinbox hserve
      next => cases h
  | work b sent =>
      simp only [exchangeStep] at h
      split at h
      next => cases h
      next server hwork => exact Option.some.inj h ▸ .move b sent server hwork
      next server a hwork =>
        obtain ⟨p, hserving, rfl⟩ := Option.map_eq_some_iff.mp h
        exact .reply b sent server p a hwork hserving
  | arrive index =>
      obtain ⟨p, hp, rfl⟩ := Option.map_eq_some_iff.mp h
      exact .arrive index p hp
  | loseRequest index => exact Option.some.inj h ▸ .loseRequest index
  | loseAnswer index => exact Option.some.inj h ▸ .loseAnswer index
  | read i =>
      simp only [exchangeStep] at h
      split at h
      next => cases h
      next c hc =>
        split at h
        next p rest hstage hbuffer => exact Option.some.inj h ▸ .read i c p rest hc hstage hbuffer
        next => cases h
  | abandon i =>
      simp only [exchangeStep] at h
      split at h
      next => cases h
      next c hc =>
        split at h
        next hstage => exact Option.some.inj h ▸ .abandon i c hc hstage
        next => cases h
  | exit owner => exact Option.some.inj h ▸ .exit owner

/-- What a call was made with stays. -/
theorem Stepped.call_kept (h : Stepped sys s l t) {i : Nat} {c : Call R A}
    (hc : s.calls[i]? = some c) :
    ∃ d, t.calls[i]? = some d ∧ d.owner = c.owner ∧ d.port = c.port ∧ d.request = c.request := by
  cases h with
  | call owner port args request =>
      refine ⟨c, ?_, rfl, rfl, rfl⟩
      rw [State.dial, List.getElem?_append_left (List.getElem?_eq_some_iff.mp hc).1, hc]
  | take | move | reply | loseRequest | loseAnswer => exact ⟨c, hc, rfl, rfl, rfl⟩
  | arrive index p =>
      refine ⟨c.deliver p, by simp [hc], ?_⟩
      rw [Call.deliver]
      split <;> exact ⟨rfl, rfl, rfl⟩
  | read j d p rest hd | abandon j d hd =>
      by_cases hj : j = i
      · subst hj
        obtain rfl := Option.some.inj (hc.symm.trans hd)
        exact ⟨_, List.getElem?_set_self (List.getElem?_eq_some_iff.mp hc).1, rfl, rfl, rfl⟩
      · exact ⟨c, by simp [hj, hc], rfl, rfl, rfl⟩
  | exit owner =>
      refine ⟨if c.owner = owner then c.exit else c, by rw [List.getElem?_map, hc]; rfl, ?_⟩
      split
      · rw [Call.exit]
        split <;> exact ⟨rfl, rfl, rfl⟩
      · exact ⟨rfl, rfl, rfl⟩

/-! ### Whose answer a call takes -/

/-- No process ends while a request of it, or the answer to one, is on its way. -/
def CleanExit (s : State σ R A) : Label κ ξ β → Prop
  | .exit owner => ∀ h ∈ s.pending, ∀ c ∈ s.calls[h.1]?, c.owner ≠ owner
  | _ => True

instance (s : State σ R A) : ∀ l : Label κ ξ β, Decidable (CleanExit s l)
  | .exit owner =>
      inferInstanceAs (Decidable (∀ h ∈ s.pending, ∀ c ∈ s.calls[h.1]?, c.owner ≠ owner))
  | .call .. | .take _ | .work .. | .arrive _ | .loseRequest _ | .loseAnswer _ | .read _
  | .abandon _ => isTrue trivial

/-- While processes end cleanly, a port is not given out again before everything that is on
its way to it has arrived. -/
structure Matched (s : State σ R A) : Prop where
  ports : ∀ i j port, s.Opens i port → s.Opens j port → i = j
  nodup : (s.pending.map Prod.fst).Nodup
  sender : ∀ h ∈ s.pending, s.Opens h.1 h.2
  buffered : ∀ i (c : Call R A), s.calls[i]? = some c → ∀ p ∈ c.buffer,
    p.call = i ∧ i ∉ s.pending.map Prod.fst
  own : ∀ i (c : Call R A) about a, s.calls[i]? = some c → c.stage = .answered about a → about = i

/-- What may become of call `i`, whose socket holds packets about itself only. -/
structure Becomes (i : Nat) (waits : Prop) (c d : Call R A) : Prop where
  isOpen : d.stage.isOpen = true → c.stage.isOpen = true
  port : d.port = c.port
  buffered : ∀ p ∈ d.buffer, p ∈ c.buffer ∨ (p.call = i ∧ ¬ waits)
  answered : ∀ about a, d.stage = .answered about a → c.stage = .answered about a ∨ about = i

theorem Becomes.refl (i : Nat) (waits : Prop) (c : Call R A) : Becomes i waits c c :=
  ⟨id, rfl, fun _ hp => .inl hp, fun _ _ h => .inl h⟩

/-- Nothing new is on its way, and what is on its way still has a socket to arrive at. -/
theorem Matched.of_subperm (h : Matched s) (hpending : t.pending.Subperm s.pending)
    (hsender : ∀ h ∈ t.pending, t.Opens h.1 h.2)
    (hcalls : ∀ i (d : Call R A), t.calls[i]? = some d →
      ∃ c, s.calls[i]? = some c ∧ Becomes i (i ∈ t.pending.map Prod.fst) c d) : Matched t where
  ports i j port := by
    rintro ⟨c, hc, hopen, rfl⟩ ⟨d, hd, hopen', hport⟩
    obtain ⟨c', hc', hbc⟩ := hcalls i c hc
    obtain ⟨d', hd', hbd⟩ := hcalls j d hd
    refine h.ports i j c.port ⟨c', hc', hbc.isOpen hopen, hbc.port.symm⟩
      ⟨d', hd', hbd.isOpen hopen', ?_⟩
    rw [← hbd.port, hport]
  nodup := by
    obtain ⟨kept, hperm, hsub⟩ := hpending
    exact (hperm.map Prod.fst).nodup_iff.mp ((hsub.map Prod.fst).nodup h.nodup)
  sender := hsender
  buffered i d hd p hp := by
    obtain ⟨c, hc, hb⟩ := hcalls i d hd
    rcases hb.buffered p hp with hold | hnew
    · obtain ⟨hcall, hnot⟩ := h.buffered i c hc p hold
      refine ⟨hcall, fun hi => hnot ?_⟩
      obtain ⟨x, hx, rfl⟩ := List.mem_map.mp hi
      exact List.mem_map_of_mem (List.Subperm.subset hpending hx)
    · exact hnew
  own i d about a hd hstage := by
    obtain ⟨c, hc, hb⟩ := hcalls i d hd
    exact (hb.answered about a hstage).elim (h.own i c about a hc) id

/-- Nothing changes at the sockets. -/
theorem Matched.of_calls_eq (h : Matched s) (hcalls : t.calls = s.calls)
    (hpending : t.pending.Subperm s.pending) : Matched t := by
  refine h.of_subperm hpending (fun x hx => ?_) fun i d hd => ⟨d, hcalls ▸ hd, .refl _ _ d⟩
  rw [State.Opens, hcalls]
  exact h.sender x (List.Subperm.subset hpending hx)

theorem opens_of_inUse {i port : Nat} (h : s.Opens i port) : s.InUse port := by
  obtain ⟨c, hc, hopen⟩ := h
  exact ⟨c, List.mem_of_getElem? hc, hopen⟩

theorem getElem?_dial {owner port : Nat} {request : R} {i : Nat} {d : Call R A}
    (hd : (s.dial owner port request).calls[i]? = some d) :
    s.calls[i]? = some d ∨ (i = s.calls.length ∧ d = { owner, port, request }) := by
  simp only [State.dial] at hd
  rw [List.getElem?_append] at hd
  split at hd
  next => exact .inl hd
  next hi =>
    obtain ⟨hzero, hd⟩ := List.getElem?_eq_some_iff.mp hd
    rw [List.length_singleton] at hzero
    exact .inr ⟨by omega, by simpa using hd.symm⟩

theorem pending_dial {owner port : Nat} {request : R} :
    (s.dial owner port request).pending.Perm ((s.calls.length, port) :: s.pending) := by
  simp only [State.pending, State.dial, List.map_append, List.map_singleton, List.append_assoc,
    List.singleton_append]
  exact List.perm_middle

/-- The port that a new call gets belongs to nobody, not even on the way. -/
theorem Matched.dial (h : Matched s) {owner port : Nat} {request : R} (hport : ¬ s.InUse port) :
    Matched (s.dial owner port request) := by
  have hfresh : ∀ x ∈ s.pending, x.1 < s.calls.length := by
    intro x hx
    obtain ⟨c, hc, -⟩ := h.sender x hx
    exact (List.getElem?_eq_some_iff.mp hc).1
  have hopens : ∀ i port', (s.dial owner port request).Opens i port' →
      s.Opens i port' ∨ (i = s.calls.length ∧ port' = port) := by
    rintro i port' ⟨d, hd, hopen, rfl⟩
    rcases getElem?_dial hd with hold | ⟨hi, rfl⟩
    · exact .inl ⟨d, hold, hopen, rfl⟩
    · exact .inr ⟨hi, rfl⟩
  have hnot : ∀ i, ¬ s.Opens i port := fun i hi => hport (opens_of_inUse hi)
  constructor
  · intro i j port' hi hj
    rcases hopens i port' hi with hi | ⟨rfl, rfl⟩ <;> rcases hopens j port' hj with hj | ⟨rfl, hp⟩
    · exact h.ports i j port' hi hj
    · exact absurd (hp ▸ hi) (hnot i)
    · exact absurd hj (hnot j)
    · rfl
  · refine (pending_dial.map Prod.fst).nodup_iff.mpr (List.nodup_cons.mpr ⟨?_, h.nodup⟩)
    intro hmem
    obtain ⟨x, hx, heq⟩ := List.mem_map.mp hmem
    exact Nat.ne_of_lt (hfresh x hx) heq
  · intro x hx
    rcases List.mem_cons.mp (pending_dial.mem_iff.mp hx) with rfl | hx
    · exact ⟨{ owner, port, request }, by simp [State.dial], rfl, rfl⟩
    · obtain ⟨c, hc, hopen⟩ := h.sender x hx
      exact ⟨c, by rw [State.dial, List.getElem?_append_left (hfresh x hx), hc], hopen⟩
  · intro i d hd p hp
    rcases getElem?_dial hd with hold | ⟨-, rfl⟩
    · obtain ⟨hcall, hno⟩ := h.buffered i d hold p hp
      refine ⟨hcall, fun hi => ?_⟩
      rcases List.mem_cons.mp ((pending_dial.map Prod.fst).mem_iff.mp hi) with rfl | hi
      · exact Nat.lt_irrefl _ (List.getElem?_eq_some_iff.mp hold).1
      · exact hno hi
    · cases hp
  · intro i d about a hd hstage
    rcases getElem?_dial hd with hold | ⟨-, rfl⟩
    · exact h.own i d about a hold hstage
    · cases hstage

/-- A packet that arrives is about the call whose socket it finds. -/
theorem Matched.arrive (h : Matched s) {index : Nat} {p : Packet A}
    (hp : s.outbox[index]? = some p) :
    Matched
      { s with outbox := s.outbox.eraseIdx index, calls := s.calls.map (Call.deliver p) } := by
  have hperm : s.pending.Perm ((p.call, p.port) ::
      State.pending
        { s with outbox := s.outbox.eraseIdx index, calls := s.calls.map (Call.deliver p) }) := by
    obtain ⟨hindex, rfl⟩ := List.getElem?_eq_some_iff.mp hp
    have hout := (List.getElem_cons_eraseIdx_perm hindex).symm.map fun p => (p.call, p.port)
    exact (hout.append_left _).trans List.perm_middle
  have hnodup := (hperm.map Prod.fst).nodup_iff.mp h.nodup
  have hopens : ∀ i port, s.Opens i port → State.Opens
      { s with outbox := s.outbox.eraseIdx index, calls := s.calls.map (Call.deliver p) }
      i port := by
    rintro i port ⟨c, hc, hopen, rfl⟩
    refine ⟨c.deliver p, by simp [hc], ?_⟩
    rw [Call.deliver]
    split <;> exact ⟨hopen, rfl⟩
  refine h.of_subperm ((List.sublist_cons_self _ _).subperm.trans hperm.symm.subperm)
    (fun x hx => hopens _ _ (h.sender x (hperm.symm.subset (List.mem_cons_of_mem _ hx)))) ?_
  intro i d hd
  obtain ⟨c, hc, rfl⟩ := Option.map_eq_some_iff.mp ((List.getElem?_map ..).symm.trans hd)
  refine ⟨c, hc, ?_⟩
  rw [Call.deliver]
  split
  next hport =>
    have hi : p.call = i := h.ports p.call i p.port
      (h.sender (p.call, p.port) (hperm.symm.subset List.mem_cons_self)) ⟨c, hc, hport⟩
    refine ⟨id, rfl, fun q hq => ?_, fun _ _ hstage => .inl hstage⟩
    rcases List.mem_append.mp hq with hq | hq
    · exact .inl hq
    · obtain rfl := List.mem_singleton.mp hq
      exact .inr ⟨hi, hi ▸ (List.nodup_cons.mp hnodup).1⟩
  next => exact .refl _ _ c

/-- One call changes, and its socket is closed only when nothing is on its way to it. -/
theorem Matched.set (h : Matched s) {i : Nat} {c d : Call R A} (hc : s.calls[i]? = some c)
    (hbecomes : Becomes i (i ∈ s.pending.map Prod.fst) c d)
    (hopen : i ∈ s.pending.map Prod.fst → c.stage.isOpen = true → d.stage.isOpen = true) :
    Matched { s with calls := s.calls.set i d } := by
  have hi : i < s.calls.length := (List.getElem?_eq_some_iff.mp hc).1
  refine h.of_subperm (List.Subperm.refl _) (fun x hx => ?_) fun j e he => ?_
  · obtain ⟨e, he, hopen', hport⟩ := h.sender x hx
    by_cases hx' : x.1 = i
    · subst hx'
      obtain rfl := Option.some.inj (hc.symm.trans he)
      refine ⟨d, List.getElem?_set_self hi, hopen (List.mem_map_of_mem hx) hopen', ?_⟩
      rw [hbecomes.port, hport]
    · exact ⟨e, by rw [List.getElem?_set_ne (Ne.symm hx'), he], hopen', hport⟩
  · by_cases hj : i = j
    · subst hj
      obtain rfl := Option.some.inj ((List.getElem?_set_self hi).symm.trans he)
      exact ⟨c, hc, hbecomes⟩
    · exact ⟨e, (List.getElem?_set_ne hj).symm.trans he, .refl _ _ e⟩

theorem Matched.read (h : Matched s) {i : Nat} {c : Call R A} {p : Packet A}
    {rest : List (Packet A)} (hc : s.calls[i]? = some c) (hbuffer : c.buffer = p :: rest) :
    Matched
      { s with
        calls := s.calls.set i { c with stage := .answered p.call p.body, buffer := [] } } := by
  obtain ⟨hcall, hnot⟩ := h.buffered i c hc p (hbuffer ▸ List.mem_cons_self)
  refine h.set hc ⟨fun hopen => absurd hopen Bool.false_ne_true, rfl, ?_, ?_⟩ ?_
  · exact List.forall_mem_nil _
  · rintro about a ⟨⟩
    exact .inr hcall
  · exact fun hi => absurd hi hnot

theorem Matched.abandon (h : Matched s) {i : Nat} {c : Call R A} (hc : s.calls[i]? = some c)
    (hstage : c.stage = .waiting) :
    Matched { s with calls := s.calls.set i { c with stage := .abandoned } } :=
  h.set hc
    ⟨fun _ => hstage ▸ rfl, rfl, fun _ hp => .inl hp, by rintro about a ⟨⟩⟩ fun _ _ => rfl

theorem Matched.exit (h : Matched s) {owner : Nat}
    (hclean : ∀ h ∈ s.pending, ∀ c ∈ s.calls[h.1]?, c.owner ≠ owner) :
    Matched
      { s with calls := s.calls.map fun c => if c.owner = owner then c.exit else c } := by
  refine h.of_subperm (List.Subperm.refl _) (fun x hx => ?_) fun i d hd => ?_
  · obtain ⟨c, hc, hopen⟩ := h.sender x hx
    refine ⟨c, ?_, hopen⟩
    rw [List.getElem?_map, hc, Option.map_some, if_neg (hclean x hx c hc)]
  · obtain ⟨c, hc, rfl⟩ := Option.map_eq_some_iff.mp ((List.getElem?_map ..).symm.trans hd)
    refine ⟨c, hc, ?_⟩
    rw [Call.exit]
    split
    · split
      · exact ⟨fun hopen => absurd hopen Bool.false_ne_true, rfl, List.forall_mem_nil _,
          by rintro about a ⟨⟩⟩
      · exact .refl _ _ c
    · exact .refl _ _ c

theorem Matched.step (h : Matched s) (clean : CleanExit s l) (hstep : Stepped sys s l t) :
    Matched t := by
  cases hstep with
  | call owner port args request _ hport => exact h.dial hport
  | take x p inbox server hserving hinbox =>
      refine h.of_calls_eq rfl (List.Perm.subperm ?_)
      simp [State.pending, hserving, hinbox]
  | move => exact h.of_calls_eq rfl (List.Subperm.refl _)
  | reply b sent server p a hwork hserving =>
      refine h.of_calls_eq rfl ?_
      simp only [State.pending, State.answer, hserving, Option.toList_some, Option.toList_none,
        List.map_nil, List.append_nil, List.append_assoc]
      refine (List.subperm_append_left _).mpr ?_
      cases sent with
      | true =>
          rw [if_pos rfl, List.map_append]
          exact (List.perm_append_comm).subperm
      | false =>
          rw [if_neg Bool.false_ne_true, List.append_nil]
          exact (List.sublist_append_right _ _).subperm
  | arrive index p hp => exact h.arrive hp
  | loseRequest index =>
      refine h.of_calls_eq rfl (List.Sublist.subperm ?_)
      exact (((List.eraseIdx_sublist ..).map _).append_right _).append_right _
  | loseAnswer index =>
      refine h.of_calls_eq rfl (List.Sublist.subperm ?_)
      exact ((List.eraseIdx_sublist ..).map _).append_left _
  | read i c p rest hc hstage hbuffer => exact h.read hc hbuffer
  | abandon i c hc hstage => exact h.abandon hc hstage
  | exit owner => exact h.exit clean

theorem matched_start (server : σ) : Matched ({ server } : State σ R A) where
  ports _ _ _ h := by
    obtain ⟨_, hc, -⟩ := h
    cases hc
  nodup := List.nodup_nil
  sender _ h := absurd h List.not_mem_nil
  buffered _ _ hc := by cases hc
  own _ _ _ _ hc := by cases hc

/-! ### The order of the answers -/

/-- The server turns to the requests in the order in which they were sent, to each at most
once, and has answered all that it has turned to but the last. -/
structure InOrder (s : State σ R A) : Prop where
  taken : s.taken = s.answers.map Prod.fst ++ s.serving.toList.map Packet.call
  sorted : (s.taken ++ s.inbox.map Packet.call).Pairwise (· < ·)
  made : ∀ k ∈ s.taken ++ s.inbox.map Packet.call, k < s.calls.length

theorem InOrder.step (h : InOrder s) (hstep : Stepped sys s l t) : InOrder t := by
  obtain ⟨htaken, hsorted, hmade⟩ := h
  cases hstep with
  | call owner port args request =>
      refine ⟨htaken, ?_, ?_⟩
      · rw [State.dial, List.map_append, ← List.append_assoc]
        refine List.pairwise_append.mpr ⟨hsorted, List.pairwise_singleton _ _, ?_⟩
        intro k hk j hj
        obtain rfl := List.mem_singleton.mp hj
        exact hmade k hk
      · intro k hk
        rw [State.dial, List.map_append, ← List.append_assoc] at hk
        rw [State.dial, List.length_append]
        rcases List.mem_append.mp hk with hk | hk
        · exact Nat.lt_succ_of_lt (hmade k hk)
        · obtain rfl := List.mem_singleton.mp hk
          exact Nat.lt_succ_self _
  | take x p inbox server hserving hinbox =>
      rw [hserving] at htaken
      rw [hinbox, List.map_cons, List.append_cons] at hsorted hmade
      exact ⟨by simp [htaken], hsorted, hmade⟩
  | move => exact ⟨htaken, hsorted, hmade⟩
  | reply b sent server p a hwork hserving =>
      rw [hserving] at htaken
      exact ⟨by simp [State.answer, htaken], hsorted, hmade⟩
  | arrive index p => exact ⟨htaken, hsorted, by simpa using hmade⟩
  | loseRequest index =>
      have hsub : (s.taken ++ (s.inbox.eraseIdx index).map Packet.call).Sublist
          (s.taken ++ s.inbox.map Packet.call) :=
        ((List.eraseIdx_sublist ..).map _).append_left _
      exact ⟨htaken, hsorted.sublist hsub, fun k hk => hmade k (hsub.subset hk)⟩
  | loseAnswer => exact ⟨htaken, hsorted, hmade⟩
  | read | abandon => exact ⟨htaken, hsorted, by simpa using hmade⟩
  | exit owner => exact ⟨htaken, hsorted, by simpa using hmade⟩

theorem inOrder_start (server : σ) : InOrder ({ server } : State σ R A) :=
  ⟨rfl, List.Pairwise.nil, List.forall_mem_nil _⟩

/-! ### What the answers say -/

/-- `I` describes the server and the request that it works on, and `Good` a request with its
answer, once and for all. -/
structure Keeps (sys : System κ σ R A ξ β) (G : σ → β → Prop) (I : σ → Option R → Prop)
    (Good : σ → R → A → Prop) : Prop where
  serve : ∀ {server next x r}, I server none → sys.serve server x r = some next →
    I next (some r) ∧ ∀ r a, Good server r a → Good next r a
  move : ∀ {server next cur b}, I server cur → G server b →
    sys.work server b = some (next, none) → I next cur ∧ ∀ r a, Good server r a → Good next r a
  reply : ∀ {server next r b a}, I server (some r) → G server b →
    sys.work server b = some (next, some a) →
    I next none ∧ Good next r a ∧ ∀ r a, Good server r a → Good next r a

/-- Whatever a call gets to read has been answered, and rightly. -/
structure Honest (I : σ → Option R → Prop) (Good : σ → R → A → Prop) (s : State σ R A) :
    Prop where
  working : I s.server (s.serving.map Packet.body)
  request : ∀ p ∈ s.inbox ++ s.serving.toList,
    ∃ c : Call R A, s.calls[p.call]? = some c ∧ c.request = p.body
  outbox : ∀ p ∈ s.outbox, (p.call, p.body) ∈ s.answers
  buffer : ∀ c ∈ s.calls, ∀ p ∈ c.buffer, (p.call, p.body) ∈ s.answers
  read : ∀ c ∈ s.calls, ∀ about a, c.stage = .answered about a → (about, a) ∈ s.answers
  good : ∀ x ∈ s.answers, ∃ c : Call R A, s.calls[x.1]? = some c ∧ Good s.server c.request x.2

/-- The steps that the server may take meet `G`. -/
def Works (G : σ → β → Prop) (s : State σ R A) : Label κ ξ β → Prop
  | .work b _ => G s.server b
  | _ => True

instance {G : σ → β → Prop} [∀ s b, Decidable (G s b)] (s : State σ R A) :
    ∀ l : Label κ ξ β, Decidable (Works G s l)
  | .work b _ => inferInstanceAs (Decidable (G s.server b))
  | .call .. | .take _ | .arrive _ | .loseRequest _ | .loseAnswer _ | .read _ | .abandon _
  | .exit _ => isTrue trivial

/-- What has arrived at a socket was on its way, and what a call has read had arrived. -/
theorem Stepped.call_from (h : Stepped sys s l t) {d : Call R A} (hd : d ∈ t.calls) :
    (d.buffer = [] ∧ d.stage = .waiting) ∨ ∃ c ∈ s.calls,
      (∀ p ∈ d.buffer, p ∈ c.buffer ∨ p ∈ s.outbox) ∧
      ∀ about a, d.stage = .answered about a →
        c.stage = .answered about a ∨ ∃ p ∈ c.buffer, p.call = about ∧ p.body = a := by
  have same : ∀ {c : Call R A}, c ∈ s.calls → ∃ c' ∈ s.calls,
      (∀ p ∈ c.buffer, p ∈ c'.buffer ∨ p ∈ s.outbox) ∧
      ∀ about a, c.stage = .answered about a →
        c'.stage = .answered about a ∨ ∃ p ∈ c'.buffer, p.call = about ∧ p.body = a :=
    fun hc => ⟨_, hc, fun _ hp => .inl hp, fun _ _ hstage => .inl hstage⟩
  cases h with
  | call owner port args request =>
      rcases List.mem_append.mp hd with hd | hd
      · exact .inr (same hd)
      · obtain rfl := List.mem_singleton.mp hd
        exact .inl ⟨rfl, rfl⟩
  | take | move | reply | loseRequest | loseAnswer => exact .inr (same hd)
  | arrive index p hp =>
      obtain ⟨c, hc, rfl⟩ := List.mem_map.mp hd
      rw [Call.deliver]
      split
      · refine .inr ⟨c, hc, fun q hq => ?_, fun _ _ hstage => .inl hstage⟩
        refine (List.mem_append.mp hq).imp_right fun hq => ?_
        exact List.mem_singleton.mp hq ▸ List.mem_of_getElem? hp
      · exact .inr (same hc)
  | read i c p rest hc hstage hbuffer =>
      rcases List.mem_or_eq_of_mem_set hd with hd | rfl
      · exact .inr (same hd)
      · refine .inr ⟨c, List.mem_of_getElem? hc, List.forall_mem_nil _, ?_⟩
        rintro about a ⟨⟩
        exact .inr ⟨p, hbuffer ▸ List.mem_cons_self, rfl, rfl⟩
  | abandon i c hc hstage =>
      rcases List.mem_or_eq_of_mem_set hd with hd | rfl
      · exact .inr (same hd)
      · exact .inr ⟨c, List.mem_of_getElem? hc, fun _ hp => .inl hp, by rintro about a ⟨⟩⟩
  | exit owner =>
      obtain ⟨c, hc, rfl⟩ := List.mem_map.mp hd
      rw [Call.exit]
      split
      · split
        · exact .inr ⟨c, hc, List.forall_mem_nil _, by rintro about a ⟨⟩⟩
        · exact .inr (same hc)
      · exact .inr (same hc)

theorem Stepped.answers_subset (h : Stepped sys s l t) : s.answers ⊆ t.answers := by
  cases h with
  | reply => exact List.subset_append_left _ _
  | _ => exact List.Subset.refl _

theorem Stepped.request_from (h : Stepped sys s l t) {p : Packet R}
    (hp : p ∈ t.inbox ++ t.serving.toList) :
    p ∈ s.inbox ++ s.serving.toList ∨
      ∃ c : Call R A, t.calls[p.call]? = some c ∧ c.request = p.body := by
  cases h with
  | call owner port args request =>
      rcases List.mem_append.mp hp with hp | hp
      · rcases List.mem_append.mp hp with hp | hp
        · exact .inl (List.mem_append_left _ hp)
        · obtain rfl := List.mem_singleton.mp hp
          exact .inr ⟨{ owner, port, request }, by simp [State.dial], rfl⟩
      · exact .inl (List.mem_append_right _ hp)
  | take x q inbox server hserving hinbox =>
      refine .inl (List.mem_append_left _ ?_)
      rw [hinbox]
      simpa [or_comm] using hp
  | move | arrive | loseAnswer | read | abandon | exit => exact .inl hp
  | reply => exact .inl (List.mem_append_left _ (by simpa [State.answer] using hp))
  | loseRequest index =>
      refine .inl (List.mem_append.mpr ?_)
      exact (List.mem_append.mp hp).imp_left fun hp => List.mem_of_mem_eraseIdx hp

theorem Stepped.outbox_from (h : Stepped sys s l t) {p : Packet A} (hp : p ∈ t.outbox) :
    p ∈ s.outbox ∨ (p.call, p.body) ∈ t.answers := by
  cases h with
  | reply b sent server q a =>
      refine (List.mem_append.mp hp).imp_right fun hp => List.mem_append_right _ ?_
      cases sent with
      | true =>
          obtain rfl := List.mem_singleton.mp hp
          exact List.mem_singleton_self _
      | false => cases hp
  | arrive | loseAnswer => exact .inl (List.mem_of_mem_eraseIdx hp)
  | call | take | move | loseRequest | read | abandon | exit => exact .inl hp

section Server

variable {G : σ → β → Prop} {I : σ → Option R → Prop} {Good : σ → R → A → Prop}

/-- What has been said about an answer remains true. -/
theorem Honest.good_kept (h : Honest I Good s) (hstep : Stepped sys s l t)
    (mono : ∀ r a, Good s.server r a → Good t.server r a) {x : Nat × A} (hx : x ∈ s.answers) :
    ∃ c : Call R A, t.calls[x.1]? = some c ∧ Good t.server c.request x.2 := by
  obtain ⟨c, hc, hgood⟩ := h.good x hx
  obtain ⟨d, hd, -, -, hrequest⟩ := hstep.call_kept hc
  exact ⟨d, hd, mono d.request x.2 (hrequest ▸ hgood)⟩

/-- The server's part of the step is what remains to be shown. -/
theorem Honest.of_step (h : Honest I Good s) (hstep : Stepped sys s l t)
    (working : I t.server (t.serving.map Packet.body))
    (good : ∀ x ∈ t.answers, ∃ c : Call R A,
      t.calls[x.1]? = some c ∧ Good t.server c.request x.2) : Honest I Good t where
  working := working
  request p hp := by
    rcases hstep.request_from hp with hold | hnew
    · obtain ⟨c, hc, hbody⟩ := h.request p hold
      obtain ⟨d, hd, -, -, hrequest⟩ := hstep.call_kept hc
      exact ⟨d, hd, hrequest.trans hbody⟩
    · exact hnew
  outbox p hp :=
    (hstep.outbox_from hp).elim (fun hold => hstep.answers_subset (h.outbox p hold)) id
  buffer d hd p hp := by
    rcases hstep.call_from hd with ⟨hnil, -⟩ | ⟨c, hc, hbuffer, -⟩
    · rw [hnil] at hp
      cases hp
    · exact hstep.answers_subset ((hbuffer p hp).elim (h.buffer c hc p) (h.outbox p))
  read d hd about a hstage := by
    rcases hstep.call_from hd with ⟨-, hwaiting⟩ | ⟨c, hc, -, hread⟩
    · rw [hstage] at hwaiting
      cases hwaiting
    · refine hstep.answers_subset ?_
      rcases hread about a hstage with hold | ⟨p, hp, rfl, rfl⟩
      · exact h.read c hc about a hold
      · exact h.buffer c hc p hp
  good := good

theorem Honest.step (keeps : Keeps sys G I Good) (h : Honest I Good s) (works : Works G s l)
    (hstep : Stepped sys s l t) : Honest I Good t := by
  have hworking := h.working
  refine h.of_step hstep ?_ ?_
  · cases hstep with
    | call | arrive | loseRequest | loseAnswer | read | abandon | exit => exact hworking
    | take x p inbox server hserving _ hserve =>
        rw [hserving] at hworking
        exact (keeps.serve hworking hserve).1
    | move b sent server hwork => exact (keeps.move hworking works hwork).1
    | reply b sent server p a hwork hserving =>
        rw [hserving] at hworking
        exact (keeps.reply hworking works hwork).1
  · intro x hx
    have kept := h.good_kept hstep (x := x)
    cases hstep with
    | call | arrive | loseRequest | loseAnswer | read | abandon | exit =>
        exact kept (fun _ _ hgood => hgood) hx
    | take _ p inbox server hserving _ hserve =>
        rw [hserving] at hworking
        exact kept (keeps.serve hworking hserve).2 hx
    | move b sent server hwork => exact kept (keeps.move hworking works hwork).2 hx
    | reply b sent server p a hwork hserving =>
        rw [hserving] at hworking
        obtain ⟨-, hgood, mono⟩ := keeps.reply hworking works hwork
        rcases List.mem_append.mp hx with hx | hx
        · exact kept mono hx
        · obtain rfl := List.mem_singleton.mp hx
          obtain ⟨c, hc, hbody⟩ := h.request p (by simp [hserving])
          exact ⟨c, hc, hbody ▸ hgood⟩

theorem honest_start {server : σ} (hserver : I server none) :
    Honest I Good ({ server } : State σ R A) where
  working := hserver
  request := List.forall_mem_nil _
  outbox := List.forall_mem_nil _
  buffer := List.forall_mem_nil _
  read := List.forall_mem_nil _
  good := List.forall_mem_nil _

/-- With a server that answers rightly, a call gets the right answer to its own request. -/
theorem answered_good (hmatched : Matched s) (hhonest : Honest I Good s) {i : Nat}
    {c : Call R A} {about : Nat} {a : A} (hc : s.calls[i]? = some c)
    (hstage : c.stage = .answered about a) : about = i ∧ Good s.server c.request a := by
  obtain rfl := hmatched.own i c about a hc hstage
  obtain ⟨d, hd, hgood⟩ :=
    hhonest.good _ (hhonest.read c (List.mem_of_getElem? hc) about a hstage)
  obtain rfl := Option.some.inj (hc.symm.trans hd)
  exact ⟨rfl, hgood⟩

end Server

end Steps

end Exchange
