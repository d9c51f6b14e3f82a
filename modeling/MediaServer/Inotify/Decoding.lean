import MediaServer.Foundation.Bytes
import MediaServer.Inotify.Service

/-!
# From bytes to events

`ms_inoti_thread` reads the kernel's records into one buffer and walks over them with a
cursor. The buffer is not cleared between two reads, and the loop looks at a record's name
before it looks at its length: the name of a record without one is whatever follows the
record.

The loop below works on the bytes. It is compared with a loop over the records that the
kernel has written, which is given the bytes left over behind them.
-/

namespace MediaServer.Inotify

/-- `sizeof(struct inotify_event)`. -/
def inotiEventSize : Nat := 16

def inotiBufLen : Nat := 1024 * (inotiEventSize + 16)

def poweroffDirName : Text := "_POWER_OFF".toList
def fileOperationEnd : Text := "_FILEOPERATION_END".toList

/-- What the loop finds where `event` points. The name is the string at `event->name`,
which need not end within the record. -/
structure RawEvent where
  wd : Int
  mask : Nat
  cookie : Nat
  len : Nat
  name : Text
deriving DecidableEq, Repr

def RawEvent.toEvent (e : RawEvent) (h : e.name.length < e.len) : Event :=
  { wd := e.wd, mask := e.mask, cookie := e.cookie, len := e.len, name := e.name,
    terminated := .inl h }

/-- `(struct inotify_event *)&buffer[i]`. -/
def eventAt (buffer : Text) (i : Nat) : RawEvent where
  wd := Bytes.signed (Bytes.numberAt 4 buffer i)
  mask := Bytes.numberAt 4 buffer (i + 4)
  cookie := Bytes.numberAt 4 buffer (i + 8)
  len := Bytes.numberAt 4 buffer (i + 12)
  name := Bytes.stringAt buffer (i + 16)

/-- How one iteration ends. -/
inductive Handling where
  /-- `goto POWER_OFF`. -/
  | powerOff
  /-- `ms_set_db_status(MS_DB_UPDATED)` and the removal of `_FILEOPERATION_END`. -/
  | announced
  | ignored
  /-- The tests of the mask are reached, with the copied name. -/
  | dispatched (branch : Branch) (wd : Int) (name : Text) (calls : List ServiceCall)
deriving DecidableEq, Repr

/-- One iteration and the offset that it looks at. -/
structure Iteration where
  offset : Nat
  handling : Handling
deriving DecidableEq, Repr

/-- The body of the loop. The kernel ends every name within its record, so a string that
does not end there belongs to a record without a name. -/
def iteration (w : World) (s : Inoti) (e : RawEvent) : Handling × Inoti :=
  if w.powerOff ∨ e.name = poweroffDirName then (.powerOff, s.leave)
  else if e.name = fileOperationEnd then (.announced, s)
  else if h : e.name.length < e.len then
    let event := e.toEvent h
    match s.received event with
    | none => (.ignored, s)
    | some (name, path) =>
        (.dispatched (branch e.mask) e.wd name (s.serviceCalls w event),
          s.handle w event name path)
  else (.ignored, s)

/-- The loop over the bytes of one read, with the world that each iteration finds; `none`
when it goes on longer than that. -/
def eventLoop (buffer : Text) (length : Nat) :
    List World → Nat → Inoti → Option (Inoti × List Iteration)
  | [], i, s => if i < length ∧ i < inotiBufLen then none else some (s, [])
  | w :: worlds, i, s =>
      if i < length ∧ i < inotiBufLen then
        let e := eventAt buffer i
        match iteration w s e with
        | (.powerOff, s) => some (s, [⟨i, .powerOff⟩])
        | (handling, s) =>
            (eventLoop buffer length worlds ((i + (inotiEventSize + e.len)) % 2 ^ 32) s).map
              fun (s, iterations) => (s, ⟨i, handling⟩ :: iterations)
      else some (s, [])

/-- An event as the kernel has it. One that concerns the watched directory itself has the
empty name. -/
structure KernelEvent where
  wd : Int
  mask : Nat
  cookie : Nat
  name : Text
  wd_range : -2 ^ 31 ≤ wd ∧ wd < 2 ^ 31
  mask_lt : mask < 2 ^ 32
  cookie_lt : cookie < 2 ^ 32
  nul_not_mem : Bytes.nul ∉ name
  name_length_le : name.length ≤ msFileNameLenMax

namespace KernelEvent

variable (r : KernelEvent)

/-- The length of the name field: the name with its NUL, rounded up to a multiple of the
size of a header. -/
def len : Nat :=
  if r.name = [] then 0 else (r.name.length + 1 + 15) / inotiEventSize * inotiEventSize

def header : Text :=
  Bytes.number 4 (Bytes.unsigned r.wd) ++ (Bytes.number 4 r.mask ++
    (Bytes.number 4 r.cookie ++ Bytes.number 4 r.len))

/-- The record that the kernel writes. -/
def encode : Text :=
  r.header ++ (r.name ++ List.replicate (r.len - r.name.length) Bytes.nul)

/-- What the loop sees of the record when `after` follows it. -/
def shown (after : Text) : RawEvent where
  wd := r.wd
  mask := r.mask
  cookie := r.cookie
  len := r.len
  name := if r.name = [] then Bytes.stringAt after 0 else r.name

@[simp] theorem shown_len (after : Text) : (r.shown after).len = r.len := rfl

theorem name_lt_len (h : r.name ≠ []) : r.name.length < r.len := by
  rw [len, if_neg h, inotiEventSize]
  omega

theorem len_le : r.len ≤ 256 := by
  have hname := r.name_length_le
  rw [msFileNameLenMax] at hname
  rw [len, inotiEventSize]
  split <;> omega

theorem length_header : r.header.length = inotiEventSize := by
  simp [header, inotiEventSize]

theorem length_encode : r.encode.length = inotiEventSize + r.len := by
  have hle : r.name.length ≤ r.len := by
    by_cases h : r.name = []
    · simp [h]
    · exact (r.name_lt_len h).le
  rw [encode, List.length_append, List.length_append, length_header, List.length_replicate]
  omega

theorem nul_mem_encode : Bytes.nul ∈ r.encode := by
  have hlen : r.len < 256 ^ 3 := r.len_le.trans_lt (by decide)
  simp [encode, header, Bytes.nul_mem_number hlen]

/-- The fields are read back from behind `front`. -/
theorem eventAt_encode (front after : Text) :
    eventAt (front ++ (r.encode ++ after)) front.length = r.shown after := by
  have hwd := Bytes.unsigned_lt r.wd
  have hmask : r.mask < 256 ^ 4 := r.mask_lt
  have hcookie : r.cookie < 256 ^ 4 := r.cookie_lt
  have hlen : r.len < 256 ^ 4 := r.len_le.trans_lt (by decide)
  have hsigned := Bytes.signed_unsigned r.wd_range.1 r.wd_range.2
  have hname : Bytes.stringAt (front ++ (r.encode ++ after)) (front.length + 16) =
      (r.shown after).name := by
    rw [Bytes.stringAt_append (by omega), encode, List.append_assoc,
      Bytes.stringAt_append (by rw [length_header, inotiEventSize]; omega), length_header,
      inotiEventSize, shown]
    by_cases h : r.name = []
    · simp [h, len]
    · have hpad : r.len - r.name.length = r.len - r.name.length - 1 + 1 := by
        have hlt := r.name_lt_len h
        omega
      rw [hpad, List.replicate_succ, List.append_assoc, List.cons_append, if_neg h]
      simp [Bytes.stringAt_string, r.nul_not_mem]
  simp only [eventAt, hname]
  simp [encode, header, shown, Bytes.numberAt_append, Bytes.numberAt_number _ hwd,
    Bytes.numberAt_number _ hmask, Bytes.numberAt_number _ hcookie,
    Bytes.numberAt_number _ hlen, hsigned]

/-- The name of a record is its own, unless it has none. -/
theorem shown_of_name (h : r.name ≠ []) (after after' : Text) :
    r.shown after = r.shown after' := by
  simp [shown, h]

/-- A record without a name shows the beginning of the next one and no more. -/
theorem shown_append (r' : KernelEvent) (after : Text) :
    r.shown (r'.encode ++ after) = r.shown r'.encode := by
  rw [shown, shown, Bytes.stringAt_append_of_mem after r'.nul_mem_encode]

/-- Records keep the cursor at multiples of the header's size. -/
theorem dvd_length_encode : inotiEventSize ∣ r.encode.length := by
  rw [length_encode, len]
  split <;> simp

end KernelEvent

/-- The bytes of one read; each record comes with the world that its iteration finds. -/
def encodeAll (records : List (World × KernelEvent)) : Text :=
  records.flatMap fun x => x.2.encode

theorem dvd_length_encodeAll (records : List (World × KernelEvent)) :
    inotiEventSize ∣ (encodeAll records).length := by
  induction records with
  | nil => exact Nat.dvd_zero _
  | cons x records ih =>
      show inotiEventSize ∣ (x.2.encode ++ encodeAll records).length
      rw [List.length_append]
      exact Nat.dvd_add x.2.dvd_length_encode ih

/-- The loop over the records, when `left` follows them in the buffer. -/
def recordLoop (left : Text) :
    List (World × KernelEvent) → Nat → Inoti → Inoti × List Iteration
  | [], _, s => (s, [])
  | (w, r) :: records, i, s =>
      match iteration w s (r.shown (encodeAll records ++ left)) with
      | (.powerOff, s) => (s, [⟨i, .powerOff⟩])
      | (handling, s) =>
          let (s, iterations) := recordLoop left records (i + r.encode.length) s
          (s, ⟨i, handling⟩ :: iterations)

/-- The loop over the bytes visits the records. -/
theorem eventLoop_eq (left : Text) (records : List (World × KernelEvent)) (front : Text)
    (s : Inoti) (hfits : front.length + (encodeAll records).length < inotiBufLen) :
    eventLoop (front ++ (encodeAll records ++ left)) (front.length + (encodeAll records).length)
        (records.map Prod.fst) front.length s =
      some (recordLoop left records front.length s) := by
  induction records generalizing front s with
  | nil => simp [eventLoop, recordLoop, encodeAll]
  | cons x records ih =>
      obtain ⟨w, r⟩ := x
      have hall : encodeAll ((w, r) :: records) = r.encode ++ encodeAll records := rfl
      have hlength := r.length_encode
      have hsize : inotiEventSize = 16 := rfl
      have hbuflen : inotiBufLen = 32768 := rfl
      rw [hall, List.length_append] at hfits
      have hgoes : front.length < front.length + (encodeAll ((w, r) :: records)).length ∧
          front.length < inotiBufLen := by
        rw [hall, List.length_append]
        omega
      have hevent : eventAt (front ++ (encodeAll ((w, r) :: records) ++ left)) front.length =
          r.shown (encodeAll records ++ left) := by
        rw [hall, List.append_assoc]
        exact r.eventAt_encode front _
      have hnext : (front.length + (inotiEventSize + r.len)) % 2 ^ 32 =
          (front ++ r.encode).length := by
        rw [List.length_append]
        omega
      rw [List.map_cons, eventLoop, if_pos hgoes, hevent, recordLoop]
      obtain ⟨⟨handling, s'⟩, houtcome⟩ :
          ∃ outcome, iteration w s (r.shown (encodeAll records ++ left)) = outcome := ⟨_, rfl⟩
      have hrest := ih (front ++ r.encode) s' (by rw [List.length_append]; omega)
      rw [List.length_append, List.append_assoc, Nat.add_assoc, ← List.length_append,
        ← List.append_assoc r.encode, ← hall] at hrest
      simp only [houtcome]
      cases handling with
      | powerOff => rfl
      | announced | ignored | dispatched =>
          simp only [KernelEvent.shown_len]
          rw [hnext, List.length_append, hrest]
          rfl

/-- What one `read` returns. -/
structure Delivery where
  records : List (World × KernelEvent)
  length_le : (encodeAll records).length ≤ inotiBufLen - 1

namespace Delivery

variable (d : Delivery)

def length : Nat := (encodeAll d.records).length

/-- How many bytes of the buffer still hold what earlier reads have written. The last byte
of the buffer is never written. -/
def room : Nat := inotiBufLen - 1 - d.length

def buffer (left : Text) : Text := encodeAll d.records ++ (left ++ [Bytes.nul])

/-- The inner loop after this read, with `left` left over in the buffer. -/
def decode (s : Inoti) (left : Text) : Option (Inoti × List Iteration) :=
  eventLoop (d.buffer left) d.length (d.records.map Prod.fst) 0 s

/-- What the loop does, and the state that it leaves, depend on the delivered bytes only. -/
def Determined (s : Inoti) : Prop :=
  ∀ left left' : Text, left.length = d.room → left'.length = d.room →
    d.decode s left = d.decode s left'

theorem decode_eq (s : Inoti) (left : Text) :
    d.decode s left = some (recordLoop (left ++ [Bytes.nul]) d.records 0 s) := by
  have hlength := d.length_le
  have hbuflen : inotiBufLen = 32768 := rfl
  have hloop := eventLoop_eq (left ++ [Bytes.nul]) d.records [] s
    (by rw [List.length_nil]; omega)
  rwa [List.length_nil, Nat.zero_add, List.nil_append] at hloop

/-- The name of the control directory always fits behind the records. -/
theorem le_room : 15 ≤ d.room := by
  have hdvd := dvd_length_encodeAll d.records
  rw [inotiEventSize] at hdvd
  have hle := d.length_le
  have hbuflen : inotiBufLen = 32768 := rfl
  rw [room, length]
  omega

end Delivery

/-- The thread comes to the end of the read and finds a record without a name there. -/
def endsNameless : List (World × KernelEvent) → Bool
  | [] => false
  | [(w, r)] => !w.powerOff && r.name = []
  | (w, r) :: next :: records =>
      !w.powerOff && (r.shown next.2.encode).name ≠ poweroffDirName &&
        endsNameless (next :: records)

section Leftover

variable {w : World} {s : Inoti} {e : RawEvent}

theorem iteration_powerOff_iff :
    (iteration w s e).1 = .powerOff ↔ w.powerOff ∨ e.name = poweroffDirName := by
  rw [iteration]
  split
  next h => exact iff_of_true rfl h
  next h =>
    refine iff_of_false ?_ h
    split
    · nofun
    · split
      · simp only
        split
        · nofun
        · nofun
      · nofun

theorem iteration_of_powerOff (h : w.powerOff) : iteration w s e = (.powerOff, s.leave) :=
  if_pos (.inl h)

/-- An iteration that does not leave the loop is followed by the rest of the records. -/
theorem recordLoop_cons {left : Text} {r : KernelEvent} {records : List (World × KernelEvent)}
    {i : Nat} {handling : Handling} {t : Inoti}
    (houtcome : iteration w s (r.shown (encodeAll records ++ left)) = (handling, t))
    (hstays : handling ≠ .powerOff) :
    recordLoop left ((w, r) :: records) i s =
      ((recordLoop left records (i + r.encode.length) t).1,
        ⟨i, handling⟩ :: (recordLoop left records (i + r.encode.length) t).2) := by
  rw [recordLoop, houtcome]
  cases handling with
  | powerOff => exact absurd rfl hstays
  | announced | ignored | dispatched => rfl

theorem recordLoop_of_leaves {left : Text} {r : KernelEvent}
    {records : List (World × KernelEvent)} {i : Nat} {t : Inoti}
    (houtcome : iteration w s (r.shown (encodeAll records ++ left)) = (.powerOff, t)) :
    recordLoop left ((w, r) :: records) i s = (t, [⟨i, .powerOff⟩]) := by
  rw [recordLoop, houtcome]

/-- What a record shows is fixed by the record behind it. -/
theorem shown_encodeAll (r : KernelEvent) (next : World × KernelEvent)
    (records : List (World × KernelEvent)) (left : Text) :
    r.shown (encodeAll (next :: records) ++ left) = r.shown next.2.encode := by
  show r.shown (next.2.encode ++ encodeAll records ++ left) = _
  rw [List.append_assoc, KernelEvent.shown_append]

/-- As long as no record without a name stands at the end, the loop does not see what is
left over. -/
theorem recordLoop_congr (left left' : Text) {records : List (World × KernelEvent)}
    (h : endsNameless records = false) (i : Nat) (s : Inoti) :
    recordLoop left records i s = recordLoop left' records i s := by
  induction records generalizing i s with
  | nil => rfl
  | cons x records ih =>
      obtain ⟨w, r⟩ := x
      cases records with
      | nil =>
          have hlast : w.powerOff = true ∨ r.name ≠ [] := by
            simpa [endsNameless, imp_iff_not_or] using h
          cases hlast with
          | inl hoff => simp only [recordLoop, iteration_of_powerOff hoff]
          | inr hname =>
              rw [recordLoop, recordLoop,
                r.shown_of_name hname (encodeAll [] ++ left) (encodeAll [] ++ left')]
              rfl
      | cons next records =>
          obtain ⟨⟨handling, t⟩, houtcome⟩ :
              ∃ outcome, iteration w s (r.shown next.2.encode) = outcome := ⟨_, rfl⟩
          have hiff := @iteration_powerOff_iff w s (r.shown next.2.encode)
          rw [houtcome] at hiff
          have hleft := houtcome
          rw [← shown_encodeAll r next records left] at hleft
          have hleft' := houtcome
          rw [← shown_encodeAll r next records left'] at hleft'
          by_cases hleaves : handling = .powerOff
          · subst hleaves
            rw [recordLoop_of_leaves hleft, recordLoop_of_leaves hleft']
          · obtain ⟨hon, hname⟩ := not_or.mp (hiff.not.mp hleaves)
            have hrest : endsNameless (next :: records) = false := by
              simpa [endsNameless, hon, hname] using h
            rw [recordLoop_cons hleft hleaves, recordLoop_cons hleft' hleaves, ih hrest]

/-- Otherwise the string left over decides whether the thread leaves. -/
theorem leaves_iff_leftover (left : Text) {records : List (World × KernelEvent)}
    (h : endsNameless records = true) (i : Nat) (s : Inoti) :
    (∃ it ∈ (recordLoop left records i s).2, it.handling = .powerOff) ↔
      Bytes.stringAt left 0 = poweroffDirName := by
  induction records generalizing i s with
  | nil => cases h
  | cons x records ih =>
      obtain ⟨w, r⟩ := x
      obtain ⟨⟨handling, t⟩, houtcome⟩ :
          ∃ outcome, iteration w s (r.shown (encodeAll records ++ left)) = outcome := ⟨_, rfl⟩
      have hiff := @iteration_powerOff_iff w s (r.shown (encodeAll records ++ left))
      rw [houtcome] at hiff
      cases records with
      | nil =>
          simp only [endsNameless, Bool.and_eq_true, Bool.not_eq_true', decide_eq_true_eq] at h
          have hname : (r.shown (encodeAll [] ++ left)).name = Bytes.stringAt left 0 := if_pos h.2
          simp only [h.1, Bool.false_eq_true, false_or, hname] at hiff
          by_cases hleaves : handling = .powerOff
          · subst hleaves
            rw [recordLoop_of_leaves houtcome]
            simpa using hiff
          · rw [recordLoop_cons houtcome hleaves]
            simpa [recordLoop] using hiff
      | cons next records =>
          simp only [endsNameless, Bool.and_eq_true, Bool.not_eq_true', decide_eq_true_eq] at h
          obtain ⟨⟨hon, hname⟩, hrest⟩ := h
          rw [shown_encodeAll] at hiff
          have hstays : handling ≠ .powerOff := hiff.not.mpr (by simp [hon, hname])
          rw [recordLoop_cons houtcome hstays]
          simpa [hstays] using ih hrest (i + r.encode.length) t

end Leftover

/-- What the loop does with a read is fixed by the bytes of the read if and only if the
thread does not find a record without a name at their end. -/
theorem decoding_determined_iff (d : Delivery) (s : Inoti) :
    d.Determined s ↔ endsNameless d.records = false := by
  constructor
  · intro hdetermined
    refine Bool.eq_false_iff.mpr fun hends => ?_
    have hroom := d.le_room
    have hlength : poweroffDirName.length = 10 := rfl
    have hsame := hdetermined
      (poweroffDirName ++ Bytes.nul :: List.replicate (d.room - 11) Bytes.nul)
      (List.replicate d.room Bytes.nul) (by simp; omega) (by simp)
    rw [d.decode_eq, d.decode_eq, Option.some.injEq] at hsame
    have hname : Bytes.stringAt
        (poweroffDirName ++ Bytes.nul :: List.replicate (d.room - 11) Bytes.nul ++ [Bytes.nul])
        0 = poweroffDirName := by
      rw [List.append_assoc, List.cons_append, Bytes.stringAt_string _ (by decide)]
    have hleaves := (leaves_iff_leftover _ hends 0 s).mpr hname
    rw [hsame, leaves_iff_leftover _ hends, Bytes.stringAt_replicate] at hleaves
    cases hleaves
  · intro hends left left' _ _
    rw [d.decode_eq, d.decode_eq, recordLoop_congr _ (left' ++ [Bytes.nul]) hends]

theorem one_wd_range : -2 ^ 31 ≤ (1 : Int) ∧ (1 : Int) < 2 ^ 31 := by decide

theorem zero_cookie_lt : 0 < 2 ^ 32 := by decide

/-- `IN_IGNORED`, which the kernel sends without a name when a watch ends. -/
def ignoredRecord : KernelEvent where
  wd := 1
  mask := 0x8000
  cookie := 0
  name := []
  wd_range := one_wd_range
  mask_lt := by decide
  cookie_lt := zero_cookie_lt
  nul_not_mem := by simp
  name_length_le := by decide

/-- The directory that announces the end of a file operation. -/
def endRecord : KernelEvent where
  wd := 1
  mask := inCreate ||| inIsDir
  cookie := 0
  name := fileOperationEnd
  wd_range := one_wd_range
  mask_lt := by decide
  cookie_lt := zero_cookie_lt
  nul_not_mem := by decide
  name_length_le := by decide

def ignoredDelivery : Delivery where
  records :=
    [({ fs := { entries := fun _ => [], opens := fun _ => false }, inotifyAddWatch := fun _ => 0 },
      ignoredRecord)]
  length_le := by decide

theorem decode_ignoredDelivery {left name : Text}
    (hname : Bytes.stringAt (left ++ [Bytes.nul]) 0 = name) :
    (ignoredDelivery.decode {} left).map Prod.snd = some [⟨0,
      if name = poweroffDirName then .powerOff
      else if name = fileOperationEnd then .announced else .ignored⟩] := by
  rw [Delivery.decode_eq]
  simp only [ignoredDelivery, recordLoop, iteration, KernelEvent.shown, KernelEvent.len,
    ignoredRecord, encodeAll, List.flatMap_nil, List.nil_append, if_true, Nat.not_lt_zero,
    Bool.false_eq_true, false_or, dite_false, hname]
  by_cases hoff : name = poweroffDirName
  · simp only [if_pos hoff]
    rfl
  · by_cases hend : name = fileOperationEnd
    · simp only [if_neg hoff, if_pos hend]
      rfl
    · simp only [if_neg hoff, if_neg hend]
      rfl

/-- The end of a watch is taken for the end of a file operation when the buffer still holds
the record of the last such end. -/
theorem decoding_stale :
    let stale := endRecord.encode.drop 16 ++ List.replicate (ignoredDelivery.room - 32) Bytes.nul
    let clear := List.replicate ignoredDelivery.room Bytes.nul
    (ignoredDelivery.decode {} stale).map Prod.snd = some [⟨0, .announced⟩] ∧
      (ignoredDelivery.decode {} clear).map Prod.snd = some [⟨0, .ignored⟩] ∧
      ¬ ignoredDelivery.Determined {} := by
  intro stale clear
  have hrecord : endRecord.encode.drop 16 =
      fileOperationEnd ++ Bytes.nul :: List.replicate 13 Bytes.nul := by decide
  have hstale : (ignoredDelivery.decode {} stale).map Prod.snd = some [⟨0, .announced⟩] := by
    have hname : Bytes.stringAt (stale ++ [Bytes.nul]) 0 = fileOperationEnd := by
      simp only [stale, hrecord, List.append_assoc, List.cons_append]
      exact Bytes.stringAt_string _ (by decide)
    rw [decode_ignoredDelivery hname]
    rfl
  have hclear : (ignoredDelivery.decode {} clear).map Prod.snd = some [⟨0, .ignored⟩] := by
    rw [decode_ignoredDelivery (Bytes.stringAt_replicate _)]
    rfl
  refine ⟨hstale, hclear, fun hdetermined => ?_⟩
  have hlength : stale.length = ignoredDelivery.room := by
    have hfirst : (endRecord.encode.drop 16).length = 32 := by decide
    have hroom : 32 ≤ ignoredDelivery.room := by decide
    simp only [stale, List.length_append, List.length_replicate, hfirst]
    omega
  rw [hdetermined stale clear hlength (by simp [clear]), hclear] at hstale
  cases hstale

end MediaServer.Inotify
