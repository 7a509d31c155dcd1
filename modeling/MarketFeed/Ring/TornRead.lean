import MarketFeed.Ring.Step
/-!
# Torn reads (ringbuffer.py:16-20, :113-142)

The reader trusts a payload when the header and the trailer around it are the number it looks for. The
producer stores the header first and the trailer last, so between the two the slot holds the bytes of
one number and the trailer of the number one revolution earlier: a reader that has read the header before
and reads the trailer now takes the mixture for the old payload. `settled` says of a load that this is not
so; `returned_pushed` that nothing else goes wrong.
-/

namespace Ring

/-- The part of the slot is as the payload says. -/
def Slot.Holds (s : Slot) (payload : List UInt8) : Loc → Prop
  | .length => s.length = payload.length
  | .byte k => ∀ b, payload[k]? = some b → s.bytes k = b

/-- A push is overwriting this part of the slot of number `seq`, and has not stored its trailer. -/
def State.Overwriting (cfg : Cfg) (st : State) (seq : Nat) (loc : Loc) : Prop :=
  ∃ p, st.producer = some p ∧ p.seq % cfg.capacity = seq % cfg.capacity ∧ p.stored loc = true ∧ p.next ≠ .writeSeq

/-- What the producer has stored so far. -/
structure Push.Ok (cfg : Cfg) (st : State) (p : Push) : Prop where
  seq : p.seq = st.writeSeq
  stored : ∀ loc, p.stored loc = true → (st.slots (p.seq % cfg.capacity)).Holds p.payload loc
  tail : p.next = .writeSeq → (st.slots (p.seq % cfg.capacity)).tail = p.seq

/-- What a read has loaded so far is right, unless a push was at work, or the trailer will tell. -/
structure Poll.Ok (cfg : Cfg) (st : State) (q : Poll) : Prop where
  bound : st.cursor < q.writeSeq ∧ q.writeSeq ≤ st.writeSeq
  unfinished : ∀ x, q.unfinished = some x → x % cfg.capacity = st.cursor % cfg.capacity ∧
    ((∃ p, st.producer = some p ∧ p.seq = x ∧ p.next ≠ .writeSeq) ∨ (st.slot cfg).tail ≠ st.cursor)
  data : ∀ n data payload, q.next = .bytes n data → q.unfinished = none → (st.slot cfg).tail = st.cursor →
    st.pushed[st.cursor]? = some payload → n = payload.length ∧ data = payload.take data.length

structure Inv (cfg : Cfg) (st : State) : Prop where
  pushed : st.pushed.length = st.writeSeq
  producer : ∀ p, st.producer = some p → p.Ok cfg st
  slots : ∀ seq payload, st.pushed[seq]? = some payload → (st.slots (seq % cfg.capacity)).tail = seq →
    ∀ loc, (st.slots (seq % cfg.capacity)).Holds payload loc ∨ st.Overwriting cfg seq loc
  poll : ∀ q, st.poll = some q → q.Ok cfg st
  returned : ∀ r ∈ st.returned, st.pushed[r.1]? = some r.2

theorem inv_init (cfg : Cfg) : Inv cfg .init where
  pushed := rfl
  producer := fun p hp => by cases hp
  slots := fun seq payload hp => by simp [State.init] at hp
  poll := fun q hq => by cases hq
  returned := fun r hr => by cases hr

/-- The trailer is not loaded, and found right, while the push that had overwritten something this read has loaded is
still before its own trailer. -/
def settled (cfg : Cfg) (st : State) : Label → Bool
  | .load => match st.poll, st.producer with
    | some q, some p => match q.next with
      | .bytes n data =>
        decide (data.length < n) || decide ((st.slot cfg).tail ≠ st.cursor) ||
          !(decide (q.unfinished = some p.seq) && decide (p.next ≠ .writeSeq))
      | _ => true
    | _, _ => true
  | _ => true

section

variable {cfg : Cfg} {st : State}

theorem Inv.lt_writeSeq (hI : Inv cfg st) {seq : Nat} {payload : List UInt8} (h : st.pushed[seq]? = some payload) :
    seq < st.writeSeq := by
  rw [← hI.pushed]
  exact (List.getElem?_eq_some_iff.1 h).1

/-! ## Stores -/

theorem storeSlot_slots (p : Push) (f : Slot → Slot) (next : Store) (i : Nat) :
    (st.storeSlot cfg p f next).slots i = if i = p.seq % cfg.capacity then f (st.slots i) else st.slots i := by
  simp only [State.storeSlot, Function.update_apply]
  split
  · rename_i h; rw [h]
  · rfl

/-- One store of a push: `loc` is what it overwrites, if that is the length or a byte; the trailer is its own number
from then on, and otherwise as before. -/
structure StoreOk (cfg : Cfg) (st : State) (p : Push) (f : Slot → Slot) (next : Store) : Prop where
  stored : ∀ loc, ({ p with next } : Push).stored loc = true → (f (st.slots (p.seq % cfg.capacity))).Holds p.payload loc
  mono : ∀ loc, p.stored loc = true → ({ p with next } : Push).stored loc = true
  frame : ∀ loc payload, ({ p with next } : Push).stored loc = false →
    (st.slots (p.seq % cfg.capacity)).Holds payload loc → (f (st.slots (p.seq % cfg.capacity))).Holds payload loc
  tail : (f (st.slots (p.seq % cfg.capacity))).tail =
    if next = .writeSeq then p.seq else (st.slots (p.seq % cfg.capacity)).tail
  before : p.next ≠ .writeSeq

theorem Inv.storeSlot (hI : Inv cfg st) {p : Push} (hp : st.producer = some p) {f : Slot → Slot} {next : Store}
    (h : StoreOk cfg st p f next) : Inv cfg (st.storeSlot cfg p f next) := by
  have hseq := (hI.producer p hp).seq
  -- a trailer that still names a finished push has not been stored by this one
  have htail : ∀ seq, seq < st.writeSeq → ((st.storeSlot cfg p f next).slots (seq % cfg.capacity)).tail = seq →
      (st.slots (seq % cfg.capacity)).tail = seq ∧ (seq % cfg.capacity = p.seq % cfg.capacity → next ≠ .writeSeq) := by
    intro seq hlt ht
    rw [storeSlot_slots] at ht
    by_cases hi : seq % cfg.capacity = p.seq % cfg.capacity
    · rw [if_pos hi, hi, h.tail] at ht
      by_cases hn : next = .writeSeq
      · rw [if_pos hn] at ht
        omega
      · rw [if_neg hn] at ht
        exact ⟨by rw [hi]; exact ht, fun _ => hn⟩
    · rw [if_neg hi] at ht
      exact ⟨ht, fun h' => absurd h' hi⟩
  refine ⟨hI.pushed, ?_, ?_, ?_, hI.returned⟩
  · intro p' hp'
    cases hp'
    refine ⟨hseq, ?_, ?_⟩
    · intro loc hl
      rw [storeSlot_slots, if_pos rfl]
      exact h.stored loc hl
    · intro hn
      rw [storeSlot_slots, if_pos rfl, h.tail]
      exact if_pos hn
  · intro seq payload hpay ht loc
    obtain ⟨ht', hnext⟩ := htail seq (hI.lt_writeSeq hpay) ht
    by_cases hi : seq % cfg.capacity = p.seq % cfg.capacity
    · by_cases hl : ({ p with next } : Push).stored loc = true
      · right
        exact ⟨{ p with next }, rfl, hi.symm, hl, hnext hi⟩
      · left
        rw [storeSlot_slots, if_pos hi, hi]
        rcases hI.slots seq payload hpay ht' loc with hh | ⟨p', hp', _, hst, _⟩
        · rw [hi] at hh
          exact h.frame loc payload (by simpa using hl) hh
        · rw [hp] at hp'
          cases hp'
          exact absurd (h.mono loc hst) hl
    · rcases hI.slots seq payload hpay ht' loc with hh | ⟨p', hp', hmod, _, _⟩
      · left
        rw [storeSlot_slots, if_neg hi]
        exact hh
      · rw [hp] at hp'
        cases hp'
        exact absurd hmod.symm hi
  · intro q hq
    have hQ := hI.poll q hq
    have hcur : st.cursor < st.writeSeq := by have := hQ.bound; omega
    refine ⟨hQ.bound, ?_, ?_⟩
    · intro x hx
      obtain ⟨hmod, hor⟩ := hQ.unfinished x hx
      refine ⟨hmod, ?_⟩
      by_cases ht : ((st.storeSlot cfg p f next).slot cfg).tail = st.cursor
      · left
        obtain ⟨ht', hnext⟩ := htail st.cursor hcur ht
        rcases hor with ⟨p', hp', rfl, _⟩ | hne
        · rw [hp] at hp'
          cases hp'
          exact ⟨{ p with next }, rfl, rfl, hnext hmod.symm⟩
        · exact absurd ht' hne
      · right
        exact ht
    · intro n data payload hn hu ht hpay
      exact hQ.data n data payload hn hu (htail st.cursor hcur ht).1 hpay

theorem storeHead_ok {p : Push} (hn : p.next = .head) :
    StoreOk cfg st p (fun s => { s with head := p.seq }) .length := by
  constructor
  · intro loc h; cases loc <;> simp [Push.stored] at h
  · intro loc h; cases loc <;> simp [Push.stored, hn] at h
  · intro loc payload _ h; cases loc <;> exact h
  · simp
  · simp [hn]

theorem storeLength_ok {p : Push} (hn : p.next = .length) :
    StoreOk cfg st p (fun s => { s with length := p.payload.length }) (.bytes 0) := by
  constructor
  · intro loc h
    cases loc with
    | length => rfl
    | byte k => simp [Push.stored] at h
  · intro loc h; cases loc <;> simp [Push.stored, hn] at h
  · intro loc payload hl h
    cases loc with
    | length => simp [Push.stored] at hl
    | byte k => exact h
  · simp
  · simp [hn]

theorem storeByte_ok {p : Push} {i : Nat} {b : UInt8} (hn : p.next = .bytes i) (hb : p.payload[i]? = some b)
    (hP : p.Ok cfg st) :
    StoreOk cfg st p (fun s => { s with bytes := Function.update s.bytes i b }) (.bytes (i + 1)) := by
  constructor
  · intro loc h
    cases loc with
    | length => exact hP.stored .length (by simp [Push.stored, hn])
    | byte k =>
      intro c hc
      by_cases hk : k = i
      · subst hk
        rw [hb] at hc
        cases hc
        simp
      · have hlt : k < i := by simp [Push.stored] at h; omega
        have := hP.stored (.byte k) (by simpa [Push.stored, hn] using hlt) c hc
        simpa [Function.update_apply, hk] using this
  · intro loc h
    cases loc with
    | length => rfl
    | byte k => simp [Push.stored, hn] at h ⊢; omega
  · intro loc payload hl h
    cases loc with
    | length => exact h
    | byte k =>
      intro c hc
      have hk : k ≠ i := by simp [Push.stored] at hl; omega
      simpa [Function.update_apply, hk] using h c hc
  · simp
  · simp [hn]

theorem storeTail_ok {p : Push} {i : Nat} (hn : p.next = .bytes i) (hb : p.payload[i]? = none) (hP : p.Ok cfg st) :
    StoreOk cfg st p (fun s => { s with tail := p.seq }) .writeSeq := by
  constructor
  · intro loc _
    cases loc with
    | length => exact hP.stored .length (by simp [Push.stored, hn])
    | byte k =>
      intro c hc
      have hlt : k < i := by
        have := (List.getElem?_eq_some_iff.1 hc).1
        have := List.getElem?_eq_none_iff.1 hb
        omega
      exact hP.stored (.byte k) (by simpa [Push.stored, hn] using hlt) c hc
  · intro loc h; cases loc <;> rfl
  · intro loc payload hl; cases loc <;> simp [Push.stored] at hl
  · simp
  · simp [hn]

/-- The last store: the number is finished. -/
theorem Inv.finish (hI : Inv cfg st) {p : Push} (hp : st.producer = some p) (hn : p.next = .writeSeq) :
    Inv cfg { st with writeSeq := p.seq + 1, producer := none, pushed := st.pushed ++ [p.payload] } := by
  have hP := hI.producer p hp
  have hold : ∀ seq, seq < st.writeSeq → (st.pushed ++ [p.payload])[seq]? = st.pushed[seq]? := by
    intro seq hlt
    exact List.getElem?_append_left (by rw [hI.pushed]; exact hlt)
  refine ⟨?_, fun p' hp' => (by cases hp'), ?_, ?_, ?_⟩
  · simp [hI.pushed, hP.seq]
  · intro seq payload hpay ht loc
    left
    by_cases hlt : seq < st.writeSeq
    · rw [hold seq hlt] at hpay
      rcases hI.slots seq payload hpay ht loc with hh | ⟨p', hp', _, _, hne⟩
      · exact hh
      · rw [hp] at hp'
        cases hp'
        exact absurd hn hne
    · have hlen := (List.getElem?_eq_some_iff.1 hpay).1
      have hs : seq = p.seq := by
        simp only [List.length_append, List.length_singleton, hI.pushed] at hlen
        have := hP.seq
        omega
      have hpl : payload = p.payload := by
        rw [hs, hP.seq, ← hI.pushed, List.getElem?_concat_length] at hpay
        exact (Option.some.inj hpay).symm
      rw [hs, hpl]
      exact hP.stored loc (by cases loc <;> simp [Push.stored, hn])
  · intro q hq
    have hQ := hI.poll q hq
    have hcur : st.cursor < st.writeSeq := by have := hQ.bound; omega
    refine ⟨⟨hQ.bound.1, by have := hQ.bound.2; have := hP.seq; show q.writeSeq ≤ p.seq + 1; omega⟩, ?_, ?_⟩
    · intro x hx
      obtain ⟨hmod, hor⟩ := hQ.unfinished x hx
      refine ⟨hmod, Or.inr ?_⟩
      rcases hor with ⟨p', hp', _, hne⟩ | hne
      · rw [hp] at hp'
        cases hp'
        exact absurd hn hne
      · exact hne
    · intro n data payload hnx hu ht hpay
      exact hQ.data n data payload hnx hu ht (by rw [← hpay]; exact (hold _ hcur).symm)
  · intro r hr
    have h := hI.returned r hr
    exact (hold r.1 (hI.lt_writeSeq h)).trans h

/-- The last store raises: the number is not given. -/
theorem Inv.abort (hI : Inv cfg st) {p : Push} (hp : st.producer = some p) (hn : p.next = .writeSeq) :
    Inv cfg { st with producer := none } := by
  refine ⟨hI.pushed, fun p' hp' => (by cases hp'), ?_, ?_, hI.returned⟩
  · intro seq payload hpay ht loc
    rcases hI.slots seq payload hpay ht loc with hh | ⟨p', hp', _, _, hne⟩
    · exact Or.inl hh
    · rw [hp] at hp'
      cases hp'
      exact absurd hn hne
  · intro q hq
    have hQ := hI.poll q hq
    refine ⟨hQ.bound, ?_, hQ.data⟩
    intro x hx
    obtain ⟨hmod, hor⟩ := hQ.unfinished x hx
    refine ⟨hmod, Or.inr ?_⟩
    rcases hor with ⟨p', hp', _, hne⟩ | hne
    · rw [hp] at hp'
      cases hp'
      exact absurd hn hne
    · exact hne

theorem Inv.store (hI : Inv cfg st) {p : Push} (hp : st.producer = some p) : Inv cfg (st.store cfg p) := by
  have hP := hI.producer p hp
  unfold State.store
  split
  · rename_i hn
    exact hI.storeSlot hp (storeHead_ok hn)
  · rename_i hn
    exact hI.storeSlot hp (storeLength_ok hn)
  · rename_i i hn
    split
    · rename_i b hb
      exact hI.storeSlot hp (storeByte_ok hn hb hP)
    · rename_i hb
      exact hI.storeSlot hp (storeTail_ok hn hb hP)
  · rename_i hn
    split
    · exact hI.finish hp hn
    · exact hI.abort hp hn

/-! ## Loads -/

/-- A step of the reader that leaves its invariant. -/
theorem Inv.setPoll (hI : Inv cfg st) {q : Option Poll} (hq : ∀ q', q = some q' → q'.Ok cfg st) :
    Inv cfg { st with poll := q } :=
  ⟨hI.pushed, fun p hp => ⟨(hI.producer p hp).seq, (hI.producer p hp).stored, (hI.producer p hp).tail⟩, hI.slots,
    fun q' hq' => ⟨(hq q' hq').bound, (hq q' hq').unfinished, (hq q' hq').data⟩, hI.returned⟩

/-- Between two items nothing is loaded. -/
theorem Inv.nextItem (hI : Inv cfg { st with poll := none }) {q : Poll} (hq : q.writeSeq ≤ st.writeSeq) :
    Inv cfg (st.nextItem q) := by
  unfold State.nextItem
  split
  · rename_i h
    apply hI.setPoll (q := some { q with next := .head, unfinished := none })
    intro q' hq'
    cases hq'
    exact ⟨⟨h.1, hq⟩, fun x hx => (by cases hx), fun n data payload hn => (by cases hn)⟩
  · exact hI

/-- Any cursor will do when no poll is under way. -/
theorem Inv.setCursor (hI : Inv cfg st) (cursor skipped torn : Nat) :
    Inv cfg { st with cursor, skipped, torn, poll := none } :=
  ⟨hI.pushed, fun p hp => ⟨(hI.producer p hp).seq, (hI.producer p hp).stored, (hI.producer p hp).tail⟩, hI.slots,
    fun q' hq' => (by cases hq'), hI.returned⟩

theorem Inv.startPoll (hI : Inv cfg st) (maxItems : Nat) : Inv cfg (st.startPoll cfg maxItems) := by
  unfold State.startPoll
  simp only
  split
  · apply Inv.nextItem
    · exact hI.setCursor _ _ _
    · exact Nat.le_refl _
  · apply Inv.nextItem
    · exact hI.setCursor _ _ _
    · exact Nat.le_refl _

theorem Inv.discard (hI : Inv cfg st) {q : Poll} (hq : q.writeSeq ≤ st.writeSeq) : Inv cfg (st.discard q) :=
  @Inv.nextItem cfg { st with torn := st.torn + 1, cursor := st.cursor + 1 } (hI.setCursor _ _ _) q hq

theorem Inv.deliver (hI : Inv cfg st) {q : Poll} (hq : q.writeSeq ≤ st.writeSeq) {data : List UInt8}
    (hd : st.pushed[st.cursor]? = some data) : Inv cfg (st.deliver q data) := by
  have h := hI.setCursor (st.cursor + 1) st.skipped st.torn
  refine @Inv.nextItem cfg { st with cursor := st.cursor + 1, returned := st.returned ++ [(st.cursor, data)] } ?_
    { q with out := q.out ++ [data] } hq
  refine ⟨h.pushed, fun p hp => ⟨(h.producer p hp).seq, (h.producer p hp).stored, (h.producer p hp).tail⟩, h.slots,
    fun q' hq' => (by cases hq'), ?_⟩
  intro r hr
  rcases List.mem_append.1 hr with hr | hr
  · exact hI.returned r hr
  · rw [List.mem_singleton.1 hr]
    exact hd

/-- What a load sees, when no push is overwriting it, and the trailer is still that of the number looked for. -/
theorem Inv.holds (hI : Inv cfg st) {payload : List UInt8} (hp : st.pushed[st.cursor]? = some payload)
    (ht : (st.slot cfg).tail = st.cursor) {loc : Loc} (ho : st.overwriting cfg loc = none) :
    (st.slot cfg).Holds payload loc := by
  rcases hI.slots st.cursor payload hp ht loc with h | ⟨p, hpr, hmod, hst, hne⟩
  · exact h
  · simp [State.overwriting, hpr, hmod, hst, hne] at ho

theorem overwriting_some {loc : Loc} {x : Nat} (h : st.overwriting cfg loc = some x) :
    x % cfg.capacity = st.cursor % cfg.capacity ∧ ∃ p, st.producer = some p ∧ p.seq = x ∧ p.next ≠ .writeSeq := by
  unfold State.overwriting at h
  split at h
  · rename_i p hp
    split at h
    · rename_i hc
      cases h
      exact ⟨hc.1, p, hp, rfl, hc.2.2⟩
    · cases h
  · cases h

theorem Inv.load (hI : Inv cfg st) {q : Poll} (hq : st.poll = some q) (hs : settled cfg st .load = true) :
    Inv cfg (st.load cfg q) := by
  have hQ := hI.poll q hq
  unfold State.load
  split
  · -- the header
    apply hI.setPoll (q := some { q with next := .length (st.slot cfg).head })
    intro q' hq'
    cases hq'
    exact ⟨hQ.bound, hQ.unfinished, fun n data payload hn => (by cases hn)⟩
  · -- the length
    split
    · exact hI.discard hQ.bound.2
    · apply hI.setPoll (q := some _)
      intro q' hq'
      cases hq'
      refine ⟨hQ.bound, ?_, ?_⟩
      · intro x hx
        obtain ⟨hmod, hp⟩ := overwriting_some hx
        exact ⟨hmod, Or.inl hp⟩
      · intro n data payload hn hu ht hpay
        cases hn
        exact ⟨hI.holds hpay ht hu, rfl⟩
  · rename_i n data hn
    split
    · -- the next byte
      rename_i hlt
      apply hI.setPoll (q := some _)
      intro q' hq'
      cases hq'
      refine ⟨hQ.bound, ?_, ?_⟩
      · intro x hx
        cases ho : st.overwriting cfg (.byte data.length) with
        | some y =>
          rw [ho] at hx
          cases hx
          obtain ⟨hmod, hp⟩ := overwriting_some ho
          exact ⟨hmod, Or.inl hp⟩
        | none =>
          simp only [ho, Option.none_or] at hx
          exact hQ.unfinished x hx
      · intro n' data' payload hn' hu ht hpay
        cases hn'
        obtain ⟨ho, hu⟩ := Option.or_eq_none_iff.1 hu
        obtain ⟨hlen, htake⟩ := hQ.data n data payload hn hu ht hpay
        refine ⟨hlen, ?_⟩
        have hb : payload[data.length]? = some (payload.get ⟨data.length, by omega⟩) := List.getElem?_eq_getElem _
        have hbyte := hI.holds hpay ht ho _ hb
        rw [hbyte, List.length_append, List.length_singleton, List.take_add_one, hb, ← htake]
        rfl
    · rename_i hlt
      split
      · exact hI.discard hQ.bound.2
      · -- the trailer is right: nothing was overwritten while it was read
        rename_i ht
        have ht : (st.slot cfg).tail = st.cursor := by simpa using ht
        apply hI.deliver hQ.bound.2
        have hcur : st.cursor < st.pushed.length := by rw [hI.pushed]; have := hQ.bound; omega
        have hpay : st.pushed[st.cursor]? = some st.pushed[st.cursor] := List.getElem?_eq_getElem hcur
        have hu : q.unfinished = none := by
          cases hu : q.unfinished with
          | none => rfl
          | some x =>
            rcases (hQ.unfinished x hu).2 with ⟨p, hp, hx, hne⟩ | hne
            · simp [settled, hq, hp, hn, hlt, ht, hu, hx, hne] at hs
            · exact absurd ht hne
        obtain ⟨hlen, htake⟩ := hQ.data n data _ hn hu ht hpay
        rw [hpay, htake, List.take_of_length_le (by omega)]

theorem inv_step {l : Label} {st' : State} (hI : Inv cfg st) (hok : settled cfg st l = true)
    (h : step cfg st l = some st') :
    Inv cfg st' := by
  cases l with
  | push payload =>
    simp only [step] at h
    split at h
    · rename_i hc
      cases h
      refine ⟨hI.pushed, ?_, ?_, ?_, hI.returned⟩
      · intro p hp
        cases hp
        exact ⟨rfl, fun loc hl => (by cases loc <;> simp [Push.stored] at hl), fun hn => (by cases hn)⟩
      · intro seq payload' hpay ht loc
        rcases hI.slots seq payload' hpay ht loc with hh | ⟨p, hp, _⟩
        · exact Or.inl hh
        · rw [hc.1] at hp
          cases hp
      · intro q hq
        have hQ := hI.poll q hq
        refine ⟨hQ.bound, ?_, hQ.data⟩
        intro x hx
        obtain ⟨hmod, hor⟩ := hQ.unfinished x hx
        refine ⟨hmod, Or.inr ?_⟩
        rcases hor with ⟨p, hp, _⟩ | hne
        · rw [hc.1] at hp
          cases hp
        · exact hne
    · cases h
  | store =>
    obtain ⟨p, hp, rfl⟩ := Option.map_eq_some_iff.1 h
    exact hI.store hp
  | reader start =>
    simp only [step] at h
    split at h
    · rename_i hc
      cases h
      have := hI.setCursor (start.getD st.writeSeq) 0 0
      rw [← hc] at this
      exact this
    · cases h
  | poll maxItems =>
    simp only [step] at h
    split at h
    · cases h
      exact hI.startPoll maxItems
    · cases h
  | load =>
    obtain ⟨q, hq, rfl⟩ := Option.map_eq_some_iff.1 h
    exact hI.load hq hok

/-- **Torn reads**: in every run in which no old trailer is loaded between the header and the trailer of a push that has
overwritten what was read, each payload returned for a number is the payload pushed with it. -/
theorem returned_pushed {ls : List Label} {st : State}
    (h : Lts.Run (step cfg) (fun st l => settled cfg st l = true) .init ls st) :
    ∀ r ∈ st.returned, st.pushed[r.1]? = some r.2 :=
  (h.invariant (inv_init cfg) fun _ _ _ hI hok hs => inv_step hI hok hs).returned

end

/-! ## Runs -/

/-- One slot of four payload bytes. -/
def oneSlot : Cfg := ⟨1, 24, by decide⟩

/-- A reader from the start, and a first push of two bytes. -/
def firstPush : List Label := [.reader none, .push [1, 2]] ++ .replicate 6 .store

/-- The second push is finished up to its trailer while the first is read: a torn read, then the second payload. -/
def tornRun : List Label :=
  firstPush ++ [.poll 256, .load, .load, .push [3, 4]] ++ .replicate 5 .store ++
    [.load, .load, .load, .store, .poll 256] ++
    .replicate 5 .load

/-- A run with a torn read and a returned payload. -/
theorem returned_pushed_torn :
    ∃ st, Lts.Run (step oneSlot) (fun st l => settled oneSlot st l = true) .init tornRun st ∧
      st.torn = 1 ∧ st.returned = [(1, [3, 4])] ∧ ∀ r ∈ st.returned, st.pushed[r.1]? = some r.2 := by
  obtain ⟨st, h, ht, hr⟩ : ∃ st, Lts.Run (step oneSlot) (fun st l => settled oneSlot st l = true) .init tornRun st ∧
    st.torn = 1 ∧ st.returned = [(1, [3, 4])] := Lts.exists_run (by decide)
  exact ⟨st, h, ht, hr, returned_pushed h⟩

/-- The second push has everything but its trailer in the slot when the first is copied. -/
def lappedRun : List Label :=
  firstPush ++ [.poll 256, .load, .load, .push [3, 4]] ++ .replicate 4 .store ++ .replicate 3 .load

/-- **A torn read is returned**: number 0 is answered with the bytes of number 1. -/
theorem lapped_returned :
    ∃ st, Lts.Run (step oneSlot) Lts.anyStep .init lappedRun st ∧
      (0, [3, 4]) ∈ st.returned ∧ st.pushed[0]? = some [1, 2] :=
  Lts.exists_run (by decide)

end Ring
