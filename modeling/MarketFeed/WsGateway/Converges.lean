import MarketFeed.WsGateway.Step
/-!
# What a client has of the keys it wants

ws_gateway.py:175-308

A client is in step where it has the snapshot's entry of every key it wants that is not waiting for the next
turn. Frames, overflow, turns, connects and send loops keep every client in step. A command may not: it
sends nothing, so a key the client comes to want by it, and whose last change was sent while it did not want
it or while it was raw, stays as it was until the key changes again. `converges_iff` says that nothing else
goes wrong.
-/

namespace WsGateway

open Keyed Writer

variable {F : Type} {table : String → Option (Entry F)} {dirty : List String}

/-! ## One client -/

/-- What a coalescing client has agrees with the table on the keys it wants, but where a turn is due. -/
def Conn.Synced (table : String → Option (Entry F)) (dirty : List String) (c : Conn F) : Prop :=
  c.mode = .coalesced → ∀ k, c.wants k = true → k ∈ dirty ∨ c.needsResync = true ∨ c.view k = table k

/-- The messages of a client are about keys of the table. -/
def Conn.Known (table : String → Option (Entry F)) (c : Conn F) : Prop :=
  ∀ m ∈ c.written ++ c.queue, ∀ e ∈ m.change.items, (table e.key).isSome

namespace Conn

@[simp] theorem enqueue_mode (size : ℤ) (m : Msg F) (c : Conn F) : (c.enqueue size m).mode = c.mode := by
  unfold enqueue
  split <;> rfl

@[simp] theorem enqueue_symbols (size : ℤ) (m : Msg F) (c : Conn F) : (c.enqueue size m).symbols = c.symbols := by
  unfold enqueue
  split <;> rfl

@[simp] theorem enqueue_wants (size : ℤ) (m : Msg F) (c : Conn F) (k : String) :
    (c.enqueue size m).wants k = c.wants k := by
  unfold wants
  rw [enqueue_symbols]

@[simp] theorem resync_wants (size : ℤ) (snapshot : List (Entry F)) (c : Conn F) (k : String) :
    (c.resync size snapshot).wants k = c.wants k := by
  unfold resync
  by_cases h : (snapshot.filter fun e => c.wants e.key).isEmpty = true
  · simp only [if_pos h]
    rfl
  · simp only [if_neg h]
    exact enqueue_wants size (.snapshot (snapshot.filter fun e => c.wants e.key) (some c.dropped))
      { c with queue := [] } k

theorem full_nil (size : ℤ) (c : Conn F) (h : c.queue = []) : c.full size = false := by
  unfold full
  rw [h]
  by_cases hs : 0 < size <;> simp [hs]

/-- A message that finds room only adds to the view. -/
theorem enqueue_room {size : ℤ} (m : Msg F) {c : Conn F} (h : c.full size = false) :
    (c.enqueue size m).needsResync = c.needsResync ∧
      (c.enqueue size m).view = Replica.apply Entry.key c.view m.change := by
  unfold enqueue
  rw [h]
  refine ⟨rfl, ?_⟩
  show Replica.view Entry.key ((c.written ++ (c.queue ++ [m])).map Msg.change) = _
  rw [← List.append_assoc, List.map_append, List.map_singleton, Replica.view_concat]
  rfl

/-- Overflow is remembered. -/
theorem enqueue_full {size : ℤ} (m : Msg F) {c : Conn F} (h : c.full size = true) :
    (c.enqueue size m).needsResync = true := by
  unfold enqueue
  rw [h]
  rfl

theorem mem_enqueue {size : ℤ} {m m' : Msg F} {c : Conn F}
    (h : m' ∈ (c.enqueue size m).written ++ (c.enqueue size m).queue) : m' ∈ c.written ++ c.queue ∨ m' = m := by
  unfold enqueue at h
  split at h
  · simp only [List.mem_append, List.mem_singleton] at h ⊢
    rcases h with h | h | h
    · exact .inl (.inl h)
    · exact .inl (.inr (List.mem_of_mem_tail h))
    · exact .inr h
  · simpa [or_assoc] using h

/-- A client has nothing of a key that is not in the table. -/
theorem Known.view_none {c : Conn F} (h : c.Known table) {k : String} (hk : table k = none) : c.view k = none := by
  by_contra hne
  obtain ⟨ch, hch, e, he, rfl⟩ := Replica.view_isSome (Option.isSome_iff_ne_none.2 hne)
  obtain ⟨m, hm, rfl⟩ := List.mem_map.1 hch
  have hsome := h m hm e he
  rw [hk] at hsome
  cases hsome

theorem Known.enqueue {c : Conn F} (h : c.Known table) (size : ℤ)
    {m : Msg F} (hm : ∀ e ∈ m.change.items, (table e.key).isSome) :
    (c.enqueue size m).Known table := by
  intro m' hm'
  rcases mem_enqueue hm' with hold | rfl
  · exact h m' hold
  · exact hm

/-- A signal, a heartbeat or a trade is nothing to the view. -/
theorem Synced.enqueue_keep {c : Conn F} (h : c.Synced table dirty) (size : ℤ) {m : Msg F} (hm : m.change = .keep) :
    (c.enqueue size m).Synced table dirty := by
  intro hmode k hk
  rw [enqueue_mode] at hmode
  rw [enqueue_wants] at hk
  cases hfull : c.full size with
  | true => exact .inr (.inl (enqueue_full m hfull))
  | false =>
    obtain ⟨hflag, hview⟩ := enqueue_room m hfull
    rw [hflag, hview, hm]
    exact h hmode k hk

/-- A tick of the entries of all waiting keys that the client wants. -/
theorem Synced.enqueue_tick {c : Conn F} (h : c.Synced table dirty) (size : ℤ) {items : List (Entry F)}
    (hitems : ∀ e ∈ items, table e.key = some e) (hall : ∀ k ∈ dirty, c.wants k = true → k ∈ items.map Entry.key) :
    (c.enqueue size (.tick items)).Synced table [] := by
  intro hmode k hk
  rw [enqueue_mode] at hmode
  rw [enqueue_wants] at hk
  cases hfull : c.full size with
  | true => exact .inr (.inl (enqueue_full _ hfull))
  | false =>
    obtain ⟨hflag, hview⟩ := enqueue_room (Msg.tick items) hfull
    rw [hflag, hview]
    show k ∈ [] ∨ c.needsResync = true ∨ items.foldl (Replica.render Entry.key) c.view k = table k
    rw [Replica.foldl_render _ hitems]
    by_cases hin : k ∈ items.map Entry.key
    · exact .inr (.inr (if_pos hin))
    · rw [if_neg hin]
      rcases h hmode k hk with hdirty | hflag | hsame
      · exact absurd (hall k hdirty hk) hin
      · exact .inr (.inl hflag)
      · exact .inr (.inr hsame)

theorem send_messages {c c' : Conn F} (h : c.send = some c') : c'.written ++ c'.queue = c.written ++ c.queue := by
  unfold send at h
  split at h
  · cases h
  · rename_i m queue hq
    cases h
    rw [hq]
    simp

theorem Synced.of_send {c c' : Conn F} (hs : c.send = some c') (h : c.Synced table dirty) : c'.Synced table dirty := by
  have hsame : c'.mode = c.mode ∧ c'.wants = c.wants ∧ c'.needsResync = c.needsResync := by
    unfold send at hs
    split at hs <;> cases hs
    exact ⟨rfl, rfl, rfl⟩
  obtain ⟨hmode, hwants, hflag⟩ := hsame
  intro hm k hw
  rw [hflag, view, send_messages hs]
  exact h (hmode ▸ hm) k (hwants ▸ hw)

/-- A subscribe keeps a client in step just when what it adds to the filter is there. -/
theorem Synced.subscribe {c : Conn F} (hc : c.Synced table dirty) (symbols : Option (List String)) :
    Synced table dirty { c with symbols := symbols } ↔ (c.mode = .coalesced →
      ∀ k, WsGateway.wants symbols k = true → c.wants k = false → k ∈ dirty ∨ c.needsResync = true ∨
      c.view k = table k) := by
  constructor
  · exact fun h hmode k hw _ => h hmode k hw
  · intro h hmode k hw
    by_cases hold : c.wants k = true
    · exact hc hmode k hold
    · exact h hmode k hw (Bool.eq_false_iff.2 hold)

theorem Synced.mode {c : Conn F} (hc : c.Synced table dirty) :
    Synced table dirty { c with mode := .coalesced } ↔ (c.mode = .raw →
      ∀ k, c.wants k = true → k ∈ dirty ∨ c.needsResync = true ∨ c.view k = table k) := by
  constructor
  · exact fun h _ k hw => h rfl k hw
  · intro h _ k hw
    cases hmode : c.mode with
    | coalesced => exact hc hmode k hw
    | raw => exact h hmode k hw

end Conn

/-! ## A turn of the coalesce loop -/

section Turn

variable {snapshot : List (Entry F)} {keys : List String}

theorem mem_tickItems {p : String → Bool} {e : Entry F} :
    e ∈ tickItems snapshot keys p ↔ ∃ k ∈ keys, p k = true ∧ lookup Entry.key k snapshot = some e := by
  simp [tickItems, and_assoc]

theorem tickItems_entry {p : String → Bool} {e : Entry F} (h : e ∈ tickItems snapshot keys p) :
    lookup Entry.key e.key snapshot = some e := by
  obtain ⟨k, -, -, hk⟩ := mem_tickItems.1 h
  rw [key_of_lookup hk]
  exact hk

theorem mem_map_tickItems {p : String → Bool} {k : String} (hk : k ∈ keys) (hp : p k = true)
    (hs : (lookup Entry.key k snapshot).isSome) : k ∈ (tickItems snapshot keys p).map Entry.key := by
  obtain ⟨e, he⟩ := Option.isSome_iff_exists.1 hs
  exact List.mem_map.2 ⟨e, mem_tickItems.2 ⟨k, hk, hp, he⟩, key_of_lookup he⟩

/-- What a turn does to one client. -/
def Conn.turn (size : ℤ) (snapshot : List (Entry F)) (keys : List String) (c : Conn F) : Conn F :=
  if c.mode = .raw then c
  else if c.needsResync then c.resync size snapshot
  else if (tickItems snapshot keys c.wants).isEmpty then c
  else c.enqueue size (.tick (tickItems snapshot keys c.wants))

/-- The loop never breaks: a key that waits is in the snapshot. -/
theorem coalesceLoop_eq (size : ℤ) (hne : keys ≠ []) (hkeys : ∀ k ∈ keys, (lookup Entry.key k snapshot).isSome)
    (clients : List (ℕ × Conn F)) :
    coalesceLoop size snapshot keys clients = clients.map fun p => (p.1, p.2.turn size snapshot keys) := by
  induction clients with
  | nil => rfl
  | cons p rest ih =>
    obtain ⟨id, c⟩ := p
    rw [coalesceLoop, List.map_cons, ih]
    unfold Conn.turn
    by_cases hraw : c.mode = .raw
    · simp only [if_pos hraw]
    · rw [if_neg hraw, if_neg hraw]
      by_cases hflag : c.needsResync = true
      · simp only [if_pos hflag]
      · rw [if_neg hflag, if_neg hflag]
        cases hs : c.symbols with
        | some syms =>
          have hw : c.wants = fun k => decide (k ∈ syms) := by
            funext k
            rw [Conn.wants, hs]
            rfl
          rw [hw]
          by_cases hitems : (tickItems snapshot keys fun k => decide (k ∈ syms)).isEmpty = true <;> simp [hitems]
        | none =>
          have hw : c.wants = fun _ => true := by
            funext k
            rw [Conn.wants, hs]
            rfl
          have hsome : (tickItems snapshot keys fun _ => true).isEmpty = false := by
            obtain ⟨k, hk⟩ := List.exists_mem_of_ne_nil keys hne
            obtain ⟨e, he, -⟩ := List.mem_map.1 (mem_map_tickItems hk (p := fun _ => true) rfl (hkeys k hk))
            exact List.isEmpty_eq_false_iff.2 (List.ne_nil_of_mem he)
          rw [hw]
          simp [hsome]

/-- A resync brings a client in step, whatever it missed. -/
theorem Conn.resync_synced (size : ℤ) {c : Conn F} (hn : (snapshot.map Entry.key).Nodup)
    (hknown : c.Known fun k => lookup Entry.key k snapshot) :
    (c.resync size snapshot).Synced (fun k => lookup Entry.key k snapshot) [] := by
  intro hmode k hk
  rw [Conn.resync_wants] at hk
  refine .inr (.inr ?_)
  unfold Conn.resync
  have hmem : ∀ e, e ∈ snapshot.filter (fun e => c.wants e.key) ↔ e ∈ snapshot ∧ c.wants e.key = true :=
    fun e => List.mem_filter
  by_cases hitems : (snapshot.filter fun e => c.wants e.key).isEmpty = true
  · simp only [if_pos hitems]
    have hnone : lookup Entry.key k snapshot = none := by
      by_contra hsome
      obtain ⟨e, he⟩ := Option.ne_none_iff_exists'.1 hsome
      have hin : e ∈ snapshot.filter fun e => c.wants e.key := by
        rw [hmem, key_of_lookup he]
        exact ⟨mem_of_lookup he, hk⟩
      rw [List.isEmpty_iff.1 hitems] at hin
      cases hin
    show c.view k = _
    rw [hnone]
    exact hknown.view_none hnone
  · simp only [if_neg hitems]
    obtain ⟨-, hview⟩ := Conn.enqueue_room (.snapshot (snapshot.filter fun e => c.wants e.key) (some c.dropped))
      (Conn.full_nil size { c with queue := [] } rfl)
    show (Conn.enqueue size _ { c with queue := [] }).view k = _
    rw [hview]
    show (snapshot.filter fun e => c.wants e.key).foldl (Replica.render Entry.key) (fun _ => none) k = _
    rw [Replica.foldl_render (fun k => lookup Entry.key k snapshot)
      (fun e he => lookup_key_of_nodup hn ((hmem e).1 he).1)]
    by_cases hin : k ∈ (snapshot.filter fun e => c.wants e.key).map Entry.key
    · rw [if_pos hin]
    · rw [if_neg hin]
      by_contra hsome
      obtain ⟨e, he⟩ := Option.ne_none_iff_exists'.1 (Ne.symm hsome)
      refine hin (List.mem_map.2 ⟨e, (hmem e).2 ⟨mem_of_lookup he, ?_⟩, key_of_lookup he⟩)
      rw [key_of_lookup he]
      exact hk

theorem Conn.turn_synced (size : ℤ) {c : Conn F} (hn : (snapshot.map Entry.key).Nodup)
    (hkeys : ∀ k ∈ keys, (lookup Entry.key k snapshot).isSome) (hknown : c.Known fun k => lookup Entry.key k snapshot)
    (h : c.Synced (fun k => lookup Entry.key k snapshot) keys) :
    (c.turn size snapshot keys).Synced (fun k => lookup Entry.key k snapshot) [] := by
  unfold Conn.turn
  by_cases hraw : c.mode = .raw
  · rw [if_pos hraw]
    intro hmode
    rw [hraw] at hmode
    cases hmode
  · rw [if_neg hraw]
    by_cases hflag : c.needsResync = true
    · rw [if_pos hflag]
      exact Conn.resync_synced size hn hknown
    · rw [if_neg hflag]
      by_cases hitems : (tickItems snapshot keys c.wants).isEmpty = true
      · rw [if_pos hitems]
        intro hmode k hk
        rcases h hmode k hk with hdirty | hold
        · have hin := mem_map_tickItems hdirty hk (hkeys k hdirty)
          rw [List.isEmpty_iff.1 hitems] at hin
          cases hin
        · exact .inr hold
      · rw [if_neg hitems]
        exact h.enqueue_tick size (fun e he => tickItems_entry he) fun k hk hw => mem_map_tickItems hk hw (hkeys k hk)

theorem Conn.turn_known (size : ℤ) {c : Conn F} (hn : (snapshot.map Entry.key).Nodup)
    (hknown : c.Known fun k => lookup Entry.key k snapshot) :
    (c.turn size snapshot keys).Known fun k => lookup Entry.key k snapshot := by
  unfold Conn.turn
  split
  · exact hknown
  · split
    · unfold Conn.resync
      simp only
      split
      · exact hknown
      · have hempty : ({ c with queue := [] } : Conn F).Known fun k => lookup Entry.key k snapshot := by
          intro m hm
          exact hknown m (List.mem_append_left c.queue (by simpa using hm))
        refine hempty.enqueue size fun e he => ?_
        rw [lookup_key_of_nodup hn (List.mem_filter.1 he).1]
        rfl
    · split
      · exact hknown
      · refine hknown.enqueue size fun e he => ?_
        rw [tickItems_entry he]
        rfl

end Turn

/-! ## The gateway -/

/-- Every client is in step. -/
def Converged (g : Gateway F) : Prop := ∀ p ∈ g.clients, p.2.Synced g.entry g.dirty

/-- A command makes the client want no key that it has not, unless a turn is due. -/
def Meets (g : Gateway F) : Act F → Prop
  | .command id (.subscribe symbols) => ∀ c, g.client id = some c → c.mode = .coalesced →
      ∀ k, wants symbols k = true → c.wants k = false → k ∈ g.dirty ∨ c.needsResync = true ∨ c.view k = g.entry k
  | .command id (.mode .coalesced) => ∀ c, g.client id = some c → c.mode = .raw →
      ∀ k, c.wants k = true → k ∈ g.dirty ∨ c.needsResync = true ∨ c.view k = g.entry k
  | _ => True

structure Kept (g : Gateway F) : Prop where
  nodup : (g.snapshot.map Entry.key).Nodup
  dirty : ∀ k ∈ g.dirty, (g.entry k).isSome
  known : ∀ p ∈ g.clients, p.2.Known g.entry

theorem kept_start : Kept (start : Gateway F) := ⟨List.nodup_nil, fun _ h => (by cases h), fun _ h => (by cases h)⟩

theorem converged_start : Converged (start : Gateway F) := fun _ h => (by cases h)

namespace Gateway

variable {g : Gateway F}

theorem mem_of_client {id : ℕ} {c : Conn F} (h : g.client id = some c) : (id, c) ∈ g.clients := by
  obtain ⟨⟨id', c'⟩, hl, rfl⟩ := Option.map_eq_some_iff.1 h
  obtain rfl : id' = id := key_of_lookup hl
  exact mem_of_lookup hl

theorem entry_setEntry {venue symbol : String} {update : Entry F → Entry F} (hu : ∀ e, (update e).key = e.key)
    (k : String) :
    (g.setEntry venue symbol update).entry k =
      if keyOf venue symbol = k then some (update ((g.entry (keyOf venue symbol)).getD (.new venue symbol)))
          else g.entry k := by
  have hkey : (update ((g.entry (keyOf venue symbol)).getD (.new venue symbol))).key = keyOf venue symbol := by
    rw [hu]
    cases he : g.entry (keyOf venue symbol) with
    | none => rfl
    | some e => exact key_of_lookup he
  unfold setEntry entry
  rw [lookup_replace]
  exact if_congr (Iff.of_eq (congrArg (· = k) hkey)) rfl rfl

theorem mem_markDirty {k k' : String} : k' ∈ (g.markDirty k).dirty ↔ k' ∈ g.dirty ∨ k' = k := by
  unfold markDirty
  by_cases h : k ∈ g.dirty
  · simp only [if_pos h]
    exact ⟨.inl, fun h' => h'.elim id fun he => he ▸ h⟩
  · simp [if_neg h]

/-- A frame that sets an entry and marks it. -/
theorem set_kept (hk : Kept g) {venue symbol : String} {update : Entry F → Entry F} (hu : ∀ e, (update e).key = e.key) :
    Kept ((g.setEntry venue symbol update).markDirty (keyOf venue symbol)) := by
  have hsome : ∀ k, (g.entry k).isSome → ((g.setEntry venue symbol update).entry k).isSome := by
    intro k h
    rw [entry_setEntry hu]
    split
    · rfl
    · exact h
  refine ⟨nodup_upsert hk.nodup _, fun k hmem => ?_, fun p hp m hm e he => hsome _ (hk.known p hp m hm e he)⟩
  rcases mem_markDirty.1 hmem with hold | rfl
  · exact hsome k (hk.dirty k hold)
  · show ((g.setEntry venue symbol update).entry _).isSome
    rw [entry_setEntry hu, if_pos rfl]
    rfl

theorem set_converged (hc : Converged g) {venue symbol : String} {update : Entry F →
    Entry F} (hu : ∀ e, (update e).key = e.key) :
    Converged ((g.setEntry venue symbol update).markDirty (keyOf venue symbol)) := by
  intro p hp hmode k hw
  rw [mem_markDirty]
  by_cases hkey : keyOf venue symbol = k
  · exact .inl (.inr hkey.symm)
  · rcases hc p hp hmode k hw with hd | hflag | hsame
    · exact .inl (.inl hd)
    · exact .inr (.inl hflag)
    · refine .inr (.inr (hsame.trans ?_))
      show g.entry k = (g.setEntry venue symbol update).entry k
      rw [entry_setEntry hu, if_neg hkey]

/-- A client after `_push_raw`. -/
theorem mem_pushRaw {size : ℤ} {m : Msg F} {raw : Bool} {key : Option String} {p : ℕ × Conn F}
    (h : p ∈ (g.pushRaw size m raw key).clients) : p ∈ g.clients ∨ ∃ c, (p.1, c) ∈ g.clients ∧
      p.2 = c.enqueue size m := by
  obtain ⟨p', hp', rfl⟩ := List.mem_map.1 h
  by_cases hskip : (raw && decide (p'.2.mode ≠ .raw)) = true
  · rw [if_pos hskip]
    exact .inl hp'
  · rw [if_neg hskip]
    by_cases hw : key.all p'.2.wants = true
    · rw [if_pos hw]
      exact .inr ⟨p'.2, hp', rfl⟩
    · rw [if_neg hw]
      exact .inl hp'

theorem pushRaw_kept (hk : Kept g) (size : ℤ) {m : Msg F} (hm : m.change = .keep) (raw : Bool) (key : Option String) :
    Kept (g.pushRaw size m raw key) := by
  refine ⟨hk.nodup, hk.dirty, fun p hp => ?_⟩
  rcases mem_pushRaw hp with hold | ⟨c, hc, he⟩
  · exact hk.known p hold
  · rw [he]
    refine (hk.known (p.1, c) hc).enqueue size fun e hin => ?_
    rw [hm] at hin
    cases hin

theorem pushRaw_converged (hc : Converged g) (size : ℤ) {m : Msg F} (hm : m.change = .keep) (raw : Bool)
    (key : Option String) :
    Converged (g.pushRaw size m raw key) := by
  intro p hp
  rcases mem_pushRaw hp with hold | ⟨c, hin, he⟩
  · exact hc p hold
  · rw [he]
    exact (hc (p.1, c) hin).enqueue_keep size hm

section Ingest

variable [CommRing F] [Div F] [LinearOrder F] (round : ℕ → F → F) (size : ℤ)

theorem ingest_kept (hk : Kept g) (e : Event F) : Kept (g.ingest round size e) := by
  cases e with
  | trade t observed =>
    have hset : Kept ((g.setEntry t.venue t.symbol fun e => e.trade round t observed).markDirty
        (keyOf t.venue t.symbol)) :=
      set_kept hk fun _ => rfl
    simp only [ingest]
    split
    · exact pushRaw_kept hset size rfl true _
    · exact hset
  | book b => exact set_kept hk fun _ => rfl
  | signal s => exact pushRaw_kept hk size rfl false _
  | heartbeat seq => exact pushRaw_kept hk size rfl false _
  | other => exact hk

/-- A change of an entry is marked, and nothing else that a frame does is about entries. -/
theorem ingest_converged (hc : Converged g) (e : Event F) : Converged (g.ingest round size e) := by
  cases e with
  | trade t observed =>
    have hset : Converged ((g.setEntry t.venue t.symbol fun e => e.trade round t observed).markDirty
        (keyOf t.venue t.symbol)) :=
      set_converged hc fun _ => rfl
    simp only [ingest]
    split
    · exact pushRaw_converged hset size rfl true _
    · exact hset
  | book b => exact set_converged hc fun _ => rfl
  | signal s => exact pushRaw_converged hc size rfl false _
  | heartbeat seq => exact pushRaw_converged hc size rfl false _
  | other => exact hc

end Ingest

/-! ### A turn -/

theorem coalesce_eq (hk : Kept g) {size : ℤ} {keys : List String} (hp : keys.Perm g.dirty) (hne : g.dirty ≠ []) :
    g.coalesce size keys = { g with dirty := [], clients := g.clients.map fun p =>
      (p.1, p.2.turn size g.snapshot keys) } := by
  unfold coalesce
  cases hc : g.clients with
  | nil => simp
  | cons p rest =>
    have hkeys : keys ≠ [] := fun h => hne (List.nil_perm.1 (h ▸ hp))
    rw [coalesceLoop_eq size hkeys fun k hmem => hk.dirty k (hp.mem_iff.1 hmem)]
    simp [hne]

theorem coalesce_kept (hk : Kept g) {size : ℤ} {keys : List String} (hp : keys.Perm g.dirty) :
    Kept (g.coalesce size keys) := by
  by_cases hne : g.dirty = []
  · have heq : g.coalesce size keys = { g with dirty := [] } := by simp [coalesce, hne]
    rw [heq]
    exact ⟨hk.nodup, fun _ h => (by cases h), hk.known⟩
  · rw [coalesce_eq hk hp hne]
    refine ⟨hk.nodup, fun _ h => (by cases h), fun p hmem => ?_⟩
    obtain ⟨p', hp', rfl⟩ := List.mem_map.1 hmem
    exact Conn.turn_known size hk.nodup (hk.known p' hp')

/-- After a turn no key waits: whoever was in step has what changed, and whoever dropped something has everything. -/
theorem coalesce_converged (hk : Kept g) (hc : Converged g) {size : ℤ} {keys : List String} (hp : keys.Perm g.dirty) :
    Converged (g.coalesce size keys) := by
  by_cases hne : g.dirty = []
  · have heq : g.coalesce size keys = { g with dirty := [] } := by simp [coalesce, hne]
    rw [heq, ← hne]
    exact hc
  · rw [coalesce_eq hk hp hne]
    intro p hmem
    obtain ⟨p', hp', rfl⟩ := List.mem_map.1 hmem
    refine Conn.turn_synced size hk.nodup (fun k hkey => hk.dirty k (hp.mem_iff.1 hkey)) (hk.known p' hp') ?_
    intro hmode k hw
    rw [hp.mem_iff]
    exact hc p' hp' hmode k hw

/-! ### A connect -/

theorem connect_kept (hk : Kept g) (size : ℤ) (id : ℕ) (mode : Mode) (symbols : Option (List String)) :
    Kept (g.connect size id mode symbols) := by
  refine ⟨hk.nodup, hk.dirty, fun p hp => ?_⟩
  rcases List.mem_append.1 hp with hold | hnew
  · exact hk.known p hold
  · rw [List.mem_singleton.1 hnew]
    refine Conn.Known.enqueue (fun m hm => (by cases hm)) size fun e he => ?_
    show (lookup Entry.key e.key g.snapshot).isSome
    rw [lookup_key_of_nodup hk.nodup he]
    rfl

/-- The snapshot of a new client has every entry. -/
theorem connect_converged (hk : Kept g) (hc : Converged g) (size : ℤ) (id : ℕ) (mode : Mode)
    (symbols : Option (List String)) :
    Converged (g.connect size id mode symbols) := by
  intro p hp
  rcases List.mem_append.1 hp with hold | hnew
  · exact hc p hold
  · rw [List.mem_singleton.1 hnew]
    intro _ k _
    obtain ⟨-, hview⟩ := Conn.enqueue_room (.snapshot g.snapshot none)
      (Conn.full_nil size ⟨[], mode, symbols, 0, false, []⟩ rfl)
    refine .inr (.inr ?_)
    show (Conn.enqueue size _ _).view k = _
    rw [hview]
    show g.snapshot.foldl (Replica.render Entry.key) (fun _ => none) k = g.entry k
    rw [Replica.foldl_render g.entry fun e he => lookup_key_of_nodup hk.nodup he]
    by_cases hin : k ∈ g.snapshot.map Entry.key
    · rw [if_pos hin]
    · rw [if_neg hin]
      exact (Option.not_isSome_iff_eq_none.1 fun h => hin (mem_keys_iff.2 h)).symm

/-! ### One client changes -/

theorem mem_setClient {id : ℕ} {c : Conn F} {p : ℕ × Conn F} (h : p ∈ (g.setClient id c).clients) :
    p ∈ g.clients ∨ p = (id, c) := by
  rcases mem_upsert h with hold | rfl | ⟨-, -, rfl⟩
  · exact .inl hold
  · exact .inr rfl
  · exact .inr rfl

theorem setClient_kept (hk : Kept g) {id : ℕ} {c : Conn F} (h : c.Known g.entry) : Kept (g.setClient id c) := by
  refine ⟨hk.nodup, hk.dirty, fun p hp => ?_⟩
  rcases mem_setClient hp with hold | rfl
  · exact hk.known p hold
  · exact h

theorem setClient_converged (hc : Converged g) (id : ℕ) (c : Conn F) :
    Converged (g.setClient id c) ↔ c.Synced g.entry g.dirty := by
  constructor
  · exact fun h => h (id, c) (mem_replace_self g.clients (id, c))
  · intro h p hp
    rcases mem_setClient hp with hold | rfl
    · exact hc p hold
    · exact h

theorem popClient_kept (hk : Kept g) (id : ℕ) : Kept (g.popClient id) :=
  ⟨hk.nodup, hk.dirty, fun p hp => hk.known p (List.mem_of_mem_filter hp)⟩

theorem popClient_converged (hc : Converged g) (id : ℕ) : Converged (g.popClient id) :=
  fun p hp => hc p (List.mem_of_mem_filter hp)

end Gateway

/-! ## Runs -/

section Runs

variable [CommRing F] [Div F] [LinearOrder F] {round : ℕ → F → F} {size : ℤ} {g g' : Gateway F}

theorem step_kept {a : Act F} (hk : Kept g) (h : step round size g a = some g') : Kept g' := by
  cases a with
  | ingest e =>
    cases h
    exact Gateway.ingest_kept round size hk e
  | coalesce keys =>
    obtain ⟨hp, he⟩ := Option.ite_none_right_eq_some.1 h
    cases he
    exact Gateway.coalesce_kept hk (List.isPerm_iff.1 hp)
  | connect id mode symbols =>
    obtain ⟨-, he⟩ := Option.ite_none_left_eq_some.1 h
    cases he
    exact Gateway.connect_kept hk size id mode symbols
  | command id cmd =>
    obtain ⟨c, hc, rfl⟩ := Option.map_eq_some_iff.1 h
    have hknown := hk.known _ (Gateway.mem_of_client hc)
    cases cmd with
    | broken => exact Gateway.popClient_kept hk id
    | ignored => exact Gateway.setClient_kept hk hknown
    | subscribe symbols => exact Gateway.setClient_kept hk hknown
    | mode m => exact Gateway.setClient_kept hk hknown
  | send id =>
    obtain ⟨c, hc, hsend⟩ := Option.bind_eq_some_iff.1 h
    obtain ⟨c', hc', rfl⟩ := Option.map_eq_some_iff.1 hsend
    refine Gateway.setClient_kept hk fun m hm => hk.known _ (Gateway.mem_of_client hc) m ?_
    rw [← Conn.send_messages hc']
    exact hm
  | close id =>
    obtain ⟨c, -, rfl⟩ := Option.map_eq_some_iff.1 h
    exact Gateway.popClient_kept hk id

/-- From where all clients are in step, they are after a step just when it is no command that adds a key a client does
not have. -/
theorem step_converged_iff {a : Act F} (hk : Kept g) (hc : Converged g) (h : step round size g a = some g') :
    Converged g' ↔ Meets g a := by
  cases a with
  | ingest e =>
    cases h
    exact iff_of_true (Gateway.ingest_converged round size hc e) trivial
  | coalesce keys =>
    obtain ⟨hp, he⟩ := Option.ite_none_right_eq_some.1 h
    cases he
    exact iff_of_true (Gateway.coalesce_converged hk hc (List.isPerm_iff.1 hp)) trivial
  | connect id mode symbols =>
    obtain ⟨-, he⟩ := Option.ite_none_left_eq_some.1 h
    cases he
    exact iff_of_true (Gateway.connect_converged hk hc size id mode symbols) trivial
  | command id cmd =>
    obtain ⟨c, hcl, rfl⟩ := Option.map_eq_some_iff.1 h
    have hsync : c.Synced g.entry g.dirty := hc _ (Gateway.mem_of_client hcl)
    cases cmd with
    | broken => exact iff_of_true (Gateway.popClient_converged hc id) trivial
    | ignored => exact iff_of_true ((Gateway.setClient_converged hc id c).2 hsync) trivial
    | subscribe symbols =>
      refine (Gateway.setClient_converged hc id _).trans ((hsync.subscribe symbols).trans ?_)
      exact ⟨fun hnew c' hc' => Option.some.inj (hcl.symm.trans hc') ▸ hnew, fun hmeets => hmeets c hcl⟩
    | mode m =>
      cases m with
      | raw => exact iff_of_true ((Gateway.setClient_converged hc id _).2 fun hmode => (by cases hmode)) trivial
      | coalesced =>
        refine (Gateway.setClient_converged hc id _).trans ((hsync.mode).trans ?_)
        exact ⟨fun hnew c' hc' => Option.some.inj (hcl.symm.trans hc') ▸ hnew, fun hmeets => hmeets c hcl⟩
  | send id =>
    obtain ⟨c, hcl, hsend⟩ := Option.bind_eq_some_iff.1 h
    obtain ⟨c', hc', rfl⟩ := Option.map_eq_some_iff.1 hsend
    refine iff_of_true ((Gateway.setClient_converged hc id c').2 ?_) trivial
    exact Conn.Synced.of_send hc' (hc _ (Gateway.mem_of_client hcl))
  | close id =>
    obtain ⟨c, -, rfl⟩ := Option.map_eq_some_iff.1 h
    exact iff_of_true (Gateway.popClient_converged hc id) trivial

/-- **Every client has the snapshot's entry of every key it wants, as long as no command makes it want a key whose last
change it was not sent.** -/
theorem converges_iff (round : ℕ → F → F) (size : ℤ) (as : List (Act F)) (g : Gateway F)
    (h : Lts.Run (step round size) Lts.anyStep start as g) :
    (∀ bs cs m, as = bs ++ cs → Lts.Run (step round size) Lts.anyStep start bs m → Converged m) ↔
      Lts.Run (step round size) Meets start as g :=
  h.invariant_iff (fun _ _ _ hk hst => step_kept hk hst) (fun _ _ _ hk hc hst => step_converged_iff hk hc hst)
    kept_start converged_start

end Runs

/-! ## A quiet symbol -/

def quiet : Trade ℤ := ⟨"KRX", "B", 0, 0, 100, 1, 1⟩

/-- A client that wants `KRX:A` only while `KRX:B` trades, and then everything. -/
def widened : List (Act ℤ) :=
  [.connect 1 .coalesced (some ["KRX:A"]), .ingest (.trade quiet 0), .coalesce ["KRX:B"], .command 1 (.subscribe none)]

/-- A client that wants everything has the trade after the turn. -/
theorem converges_quiet : ∃ g, Lts.Run (step (F := ℤ) (fun _ x => x) 2) Lts.anyStep start
    [.connect 1 .coalesced none, .ingest (.trade quiet 0), .coalesce ["KRX:B"]] g ∧ Converged g := by
  have hex : ∃ g, Lts.Run (step (F := ℤ) (fun _ x => x) 2) Lts.anyStep start
      [.connect 1 .coalesced none, .ingest (.trade quiet 0), .coalesce ["KRX:B"]] g ∧
        g.dirty = [] := Lts.exists_run (by decide +kernel)
  obtain ⟨g, hrun, -⟩ := hex
  refine ⟨g, hrun, (converges_iff _ 2 _ g hrun).2 ?_ _ [] g (List.append_nil _).symm hrun⟩
  refine (hrun.restrict (p := fun a => ∀ id cmd, a ≠ .command id cmd) (by simp)).mono fun s a h => ?_
  cases a with
  | command id cmd => exact absurd rfl (h.2 id cmd)
  | _ => trivial

/-- It has nothing of `KRX:B` when it wants everything, and no turn is due. -/
theorem quiet_is_missed : ∃ g, Lts.Run (step (F := ℤ) (fun _ x => x) 2) Lts.anyStep start widened g ∧
    ¬ Converged g := by
  have hex : ∃ g c, Lts.Run (step (F := ℤ) (fun _ x => x) 2) Lts.anyStep start widened g ∧ g.client 1 = some c ∧
      c.mode = .coalesced ∧ c.wants "KRX:B" = true ∧ "KRX:B" ∉ g.dirty ∧ c.needsResync = false ∧
      c.view "KRX:B" ≠ g.entry "KRX:B" :=
    Lts.exists_run_some (by decide +kernel)
  obtain ⟨g, c, hrun, hc, hmode, hw, hdirty, hflag, hview⟩ := hex
  refine ⟨g, hrun, fun hconv => ?_⟩
  rcases hconv _ (Gateway.mem_of_client hc) hmode "KRX:B" hw with h | h | h
  · exact hdirty h
  · exact absurd h (by rw [hflag]; decide)
  · exact hview h

end WsGateway
