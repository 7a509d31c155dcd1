import MarketFeed.Writer.Buffers
/-!
# Rows that wait, in any run (writer.py:159-259)

`Kept` is about runs that lose nothing. `Sound` holds in all of them: the slot is the flush's own while a
batch is written, and a slot whose receipts are there has its rows in storage. What waits is in a reachable
list, in the flush's locals, or in a slot without receipts; a step that is no exception takes nothing from
what waits and what is stored together.
-/

namespace Writer

open Storage Keyed Clock Lts

variable {F : Type}

/-- The rows of a slot that storage has no receipt of. -/
def State.unstoredSlot (w : State F) : List (Row F) :=
  match w.retry with
  | some b => if w.db.receipts.any b.matches then [] else batchRows b
  | none => []

def State.waiting (w : State F) : List (Row F) := w.roots.flatMap w.list ++ (w.locals ++ w.unstoredSlot)

/-- What waits and what is stored. -/
def State.allRows (w : State F) : List (Row F) := w.waiting ++ tableRows w.db

structure Sound (w : State F) : Prop where
  nodup : w.roots.Nodup
  bound : ∀ r ∈ w.roots, r < w.lists.length
  slotFree : ∀ f, w.flush = some f → f.collecting = true → w.retry = none
  slotFull : ∀ b done, w.flush = some (.write b done) ∨ w.flush = some (.stored b done) → w.retry = some b
  slot : ∀ b, w.retry = some b → w.db.receipts.any b.matches = true → (batchRows b).Subperm (tableRows w.db)
  stored : ∀ b done, w.flush = some (.stored b done) → w.db.receipts.any b.matches = true ∨ batchRows b = []
  made : ∀ b done, w.flush = some (.made b done) → Fresh w.db b

theorem sound_init : Sound (State.init : State F) where
  nodup := kept_init.nodup
  bound := kept_init.bound
  slotFree := kept_init.slotFree
  slotFull := kept_init.slotFull
  slot := by simp [State.init]
  stored := by simp [State.init]
  made := kept_init.madeFresh

theorem any_matches_of_fresh {t : Tables F} {b : StorageBatch F} (h : Fresh t b) : t.receipts.any b.matches = false :=
  List.any_eq_false.2 fun r hr => by simp [h r hr]

theorem fresh_of_any_matches {t : Tables F} {b : StorageBatch F} (h : t.receipts.any b.matches = false) : Fresh t b :=
  fun r hr => by simpa using List.any_eq_false.1 h r hr

theorem roots_congr {w w' : State F} (hrefs : w'.refs = w.refs) (hfl : w'.flushRefs = w.flushRefs) :
    w'.roots = w.roots := by
  rw [State.roots, hrefs, hfl, State.roots]

theorem unstoredSlot_congr {w w' : State F} (hretry : w'.retry = w.retry) (hrec : w'.db.receipts = w.db.receipts) :
    w'.unstoredSlot = w.unstoredSlot := by
  rw [State.unstoredSlot, hretry, hrec, State.unstoredSlot]

/-- Steps that leave the lists' number, the references, the slot, the flush, and storage but for its bars. -/
theorem Sound.congr {w w' : State F} (hs : Sound w) (hlists : w'.lists.length = w.lists.length)
    (hrefs : w'.refs = w.refs)
    (hretry : w'.retry = w.retry) (hflush : w'.flush = w.flush) (hrec : w'.db.receipts = w.db.receipts)
    (hrows : tableRows w'.db = tableRows w.db) : Sound w' := by
  have hroots : w'.roots = w.roots := roots_congr hrefs (by rw [State.flushRefs, hflush, State.flushRefs])
  refine ⟨hroots ▸ hs.nodup, ?_, ?_, ?_, ?_, ?_, ?_⟩
  · rw [hroots, hlists]
    exact hs.bound
  · rw [hflush, hretry]
    exact hs.slotFree
  · rw [hflush, hretry]
    exact hs.slotFull
  · rw [hretry, hrec, hrows]
    exact hs.slot
  · rw [hflush, hrec]
    exact hs.stored
  · rw [hflush]
    intro b done h r hr
    exact hs.made b done h r (hrec ▸ hr)

/-- A flush that goes on, begins or ends without touching the slot or storage. -/
theorem Sound.setFlush {w w' : State F} (hs : Sound w) (hlists : w'.lists = w.lists) (hrefs : w'.refs = w.refs)
    (hretry : w'.retry = w.retry) (hdb : w'.db = w.db) (hsub : w'.flushRefs.Sublist w.flushRefs)
    (hfree : ∀ f, w'.flush = some f → f.collecting = true → w.retry = none)
    (hfull : ∀ b done, w'.flush = some (.write b done) → w.retry = some b)
    (hstored : ∀ b done, w'.flush ≠ some (.stored b done))
    (hmade : ∀ b done, w'.flush = some (.made b done) → Fresh w.db b) : Sound w' := by
  have hroots : w'.roots.Sublist w.roots := by
    rw [State.roots, State.roots, hrefs]
    exact hsub.append_left _
  refine ⟨hs.nodup.sublist hroots, ?_, ?_, ?_, ?_, ?_, ?_⟩
  · rw [hlists]
    exact fun r hr => hs.bound r (hroots.subset hr)
  · rw [hretry]
    exact hfree
  · rw [hretry]
    intro b done h
    exact h.elim (hfull b done) fun h => absurd h (hstored b done)
  · rw [hretry, hdb]
    exact hs.slot
  · exact fun b done h => absurd h (hstored b done)
  · rw [hdb]
    exact hmade

theorem Sound.endFlush {w : State F} (hs : Sound w) : Sound w.endFlush := by
  refine hs.setFlush rfl rfl rfl rfl ?_ ?_ ?_ ?_ ?_
  · exact List.nil_sublist _
  · simp [State.endFlush]
  · simp [State.endFlush]
  · simp [State.endFlush]
  · simp [State.endFlush]

/-- A flush that still collects goes on collecting. -/
theorem Sound.goOn {w : State F} (hs : Sound w) {f f' : Flush F} (hf : w.flush = some f) (hc : f.collecting = true)
    (hc' : f'.collecting = true) (hsub : f'.refs.Sublist f.refs) (hmade : ∀ b done, f' = .made b done → Fresh w.db b) :
    Sound { w with flush := some f' } := by
  refine hs.setFlush rfl rfl rfl rfl ?_ ?_ ?_ ?_ ?_
  · rw [State.flushRefs, State.flushRefs, hf]
    exact hsub
  · exact fun _ _ _ => hs.slotFree f hf hc
  · rintro b done h
    cases h
    cases hc'
  · rintro b done h
    cases h
    cases hc'
  · rintro b done h
    exact hmade b done (Option.some.inj h)

theorem Sound.lock {w : State F} (hs : Sound w) (hr : w.retry = none) : Sound { w with flush := some (.swap []) } :=
  hs.setFlush rfl rfl rfl rfl (List.nil_sublist _) (fun _ _ _ => hr) (by simp) (by simp) (by simp)

theorem Sound.lockRetry {w : State F} (hs : Sound w) {b : StorageBatch F} (hr : w.retry = some b) :
    Sound { w with flush := some (.write b []) } := by
  refine hs.setFlush rfl rfl rfl rfl (List.nil_sublist _) ?_ ?_ (by simp) (by simp)
  · rintro f h hc
    cases h
    cases hc
  · rintro b' done h
    cases h
    exact hr

theorem Sound.swap {w : State F} (hs : Sound w) {held : List Nat} {k : Kind} (hf : w.flush = some (.swap held)) :
    Sound { w with
      flush := some (.swap (held ++ [w.refs k]))
      refs := Function.update w.refs k w.lists.length
      lists := w.lists ++ [[]] } := by
  obtain ⟨hnodup, hbound, -⟩ := swap_roots hs.nodup hs.bound hf (k := k) rfl
  refine ⟨hnodup, hbound, ?_, ?_, hs.slot, ?_, ?_⟩
  · exact fun _ _ _ => hs.slotFree _ hf rfl
  · simp
  · simp
  · simp

theorem Sound.park {w : State F} (hs : Sound w) {b : StorageBatch F} {done : List BarKey}
    (hf : w.flush = some (.made b done)) :
    Sound { w with retry := some b, flush := some (.write b done) } := by
  have hroots : State.roots { w with retry := some b, flush := some (.write b done) } = w.roots := by
    refine roots_congr rfl ?_
    rw [State.flushRefs, State.flushRefs, hf]
    rfl
  refine ⟨hroots ▸ hs.nodup, fun r hr => hs.bound r (hroots ▸ hr), ?_, ?_, ?_, ?_, ?_⟩
  · rintro f h hc
    cases h
    cases hc
  · rintro b' done' (h | h) <;> cases h
    rfl
  · rintro b' h hany
    cases h
    rw [any_matches_of_fresh (hs.made b done hf)] at hany
    cases hany
  · simp
  · simp

theorem Sound.clear {w : State F} (hs : Sound w) {b : StorageBatch F} {done : List BarKey}
    (hf : w.flush = some (.stored b done)) :
    Sound { w with retry := none, flush := some (.pop done) } := by
  have hroots : State.roots { w with retry := none, flush := some (.pop done) } = w.roots := by
    refine roots_congr rfl ?_
    rw [State.flushRefs, State.flushRefs, hf]
    rfl
  refine ⟨hroots ▸ hs.nodup, fun r hr => hs.bound r (hroots ▸ hr), ?_, ?_, ?_, ?_, ?_⟩
  · simp
  · simp
  · simp
  · simp
  · simp

/-- Whatever is in a buffer, in a flush or in the slot waits or is stored. -/
theorem Sound.buffered_subperm {w : State F} (hs : Sound w) :
    (w.buffered ++ (w.held ++ w.retryRows)).Subperm w.allRows := by
  have hslot : w.retryRows.Subperm (w.unstoredSlot ++ tableRows w.db) := by
    unfold State.retryRows State.unstoredSlot
    cases hr : w.retry with
    | none => exact List.nil_subperm
    | some b =>
      simp only
      by_cases hany : w.db.receipts.any b.matches = true
      · rw [if_pos hany]
        exact hs.slot b hr hany
      · rw [if_neg hany]
        exact (List.sublist_append_left _ _).subperm
  have hleft : w.buffered ++ (w.held ++ w.retryRows) = (w.roots.flatMap w.list ++ w.locals) ++ w.retryRows := by
    simp [State.buffered, State.held, State.roots, List.flatMap_append, List.flatMap_map]
  have hright : w.allRows = (w.roots.flatMap w.list ++ w.locals) ++ (w.unstoredSlot ++ tableRows w.db) := by
    simp [State.allRows, State.waiting]
  rw [hleft, hright]
  exact (List.subperm_append_left _).2 hslot

/-! ## After the last flush has begun -/

def Phase.past (p : Phase F) : Prop := p ≠ .running ∧ p ≠ .stopping

/-- The buffers the last flush has taken; later, all of them. -/
def State.emptied (w : State F) : List Kind :=
  match w.phase, w.flush with
  | .lastFlush, some (.swap held) => kinds.take held.length
  | _, _ => kinds

/-- Since the last flush: what it took is empty, and a batch in the slot is being written. -/
structure Quiet (w : State F) : Prop where
  lists : ∀ k ∈ w.emptied, w.list (w.refs k) = []
  slot : ∀ b, w.retry = some b → ∃ done, w.flush = some (.write b done) ∨ w.flush = some (.stored b done)

theorem emptied_subset (w : State F) : w.emptied ⊆ kinds := by
  unfold State.emptied
  split
  · exact List.take_subset _ _
  · exact List.Subset.refl _

theorem Quiet.congr {w w' : State F} (hq : Quiet w) (hlists : w'.lists = w.lists) (hrefs : w'.refs = w.refs)
    (hsub : w'.emptied ⊆ w.emptied)
    (hslot : ∀ b, w'.retry = some b → ∃ done, w'.flush = some (.write b done) ∨ w'.flush = some (.stored b done)) :
    Quiet w' := by
  refine ⟨fun k hk => ?_, hslot⟩
  rw [State.list, hlists, hrefs]
  exact hq.lists k (hsub hk)

/-- Nothing is in the slot where no batch is being written. -/
theorem Quiet.slot_free {w : State F} (hq : Quiet w) (hf : ∀ b done, w.flush ≠ some (.write b done) ∧
    w.flush ≠ some (.stored b done)) :
    w.retry = none := by
  by_contra hne
  obtain ⟨b, hb⟩ := Option.ne_none_iff_exists'.1 hne
  obtain ⟨done, h | h⟩ := hq.slot b hb
  · exact (hf b done).1 h
  · exact (hf b done).2 h

/-- A flush that goes on without a batch in the slot. -/
theorem Quiet.setFlush {w w' : State F} (hq : Quiet w) (hlists : w'.lists = w.lists) (hrefs : w'.refs = w.refs)
    (hretry : w'.retry = none) (hsub : w'.emptied ⊆ w.emptied) : Quiet w' :=
  hq.congr hlists hrefs hsub fun b hb => absurd (hretry.symm.trans hb) (by simp)

theorem emptied_of_not_swap {w : State F} (h : ∀ held, w.flush ≠ some (.swap held)) : w.emptied = kinds := by
  unfold State.emptied
  split
  · rename_i held _ hf
    exact absurd hf (h held)
  · rfl

theorem emptied_of_phase {w : State F} (h : w.phase ≠ .lastFlush) : w.emptied = kinds := by
  unfold State.emptied
  split
  · rename_i hp _
    exact absurd hp h
  · rfl

/-- A buffer that is taken is empty, and so are those that were. -/
theorem Quiet.swap {w : State F} (hq : Quiet w) (hs : Sound w)
    {held : List Nat} {k : Kind} (hf : w.flush = some (.swap held))
    (hk : kinds[held.length]? = some k) :
    Quiet { w with
      flush := some (.swap (held ++ [w.refs k]))
      refs := Function.update w.refs k w.lists.length
      lists := w.lists ++ [[]] } := by
  have hnone : w.retry = none := hs.slotFree _ hf rfl
  refine ⟨fun k' hk' => ?_, fun b hb => absurd (hnone.symm.trans hb) (by simp)⟩
  show (w.lists ++ [[]]).getD (Function.update w.refs k w.lists.length k') [] = []
  by_cases hkk : k' = k
  · rw [hkk, Function.update_self]
    exact getD_snoc_self w.lists
  · rw [Function.update_of_ne hkk]
    have hroot : w.refs k' ∈ w.roots := by
      refine List.mem_append_left _ (List.mem_map_of_mem ?_)
      cases k' <;> decide
    rw [getD_snoc w.lists (hs.bound _ hroot)]
    refine hq.lists k' ?_
    by_cases hp : w.phase = .lastFlush
    · have hnew : k' ∈ kinds.take (held.length + 1) := by
        have : k' ∈ kinds.take (held ++ [w.refs k]).length := by
          simpa [State.emptied, hp] using hk'
        rwa [List.length_append, List.length_singleton] at this
      rw [List.take_add_one, hk] at hnew
      have hold : k' ∈ kinds.take held.length := by
        rcases List.mem_append.1 hnew with h | h
        · exact h
        · exact absurd (by simpa using h) hkk
      simpa [State.emptied, hp, hf] using hold
    · rw [emptied_of_phase hp]
      cases k' <;> decide

section

variable [CommRing F] [LinearOrder F]

/-- A batch that was written has its receipts, unless it has no rows. -/
theorem any_matches_write {t : Tables F} (b : StorageBatch F) (committedAt : String) :
    (t.write b committedAt).receipts.any b.matches = true ∨ batchRows b = [] := by
  unfold Tables.write
  cases hany : t.receipts.any b.matches with
  | true => exact .inl hany
  | false =>
    rw [if_neg (by simp)]
    cases he : b.isEmpty with
    | true =>
      simp only [StorageBatch.isEmpty, Bool.and_eq_true, List.isEmpty_iff] at he
      exact .inr (by simp [batchRows, he])
    | false =>
      obtain ⟨r, hr⟩ := List.exists_mem_of_ne_nil _ fun h =>
        expected_ne_nil he (List.map_eq_nil_iff.1 h : b.expected = [])
      exact .inl (List.any_eq_true.2 ⟨r, List.mem_append_right _ hr, matches_receipts b committedAt r hr⟩)

theorem Sound.write {w : State F} (hs : Sound w) {b : StorageBatch F} {done : List BarKey} {committedAt : String}
    (hf : w.flush = some (.write b done)) :
    Sound { w with db := w.db.write b committedAt, flush := some (.stored b done) } := by
  have hslot : w.retry = some b := hs.slotFull b done (.inl hf)
  have hroots : State.roots { w with db := w.db.write b committedAt, flush := some (.stored b done) } = w.roots := by
    refine roots_congr rfl ?_
    rw [State.flushRefs, State.flushRefs, hf]
    rfl
  refine ⟨hroots ▸ hs.nodup, fun r hr => hs.bound r (hroots ▸ hr), ?_, ?_, ?_, ?_, ?_⟩
  · rintro f h hc
    cases h
    cases hc
  · rintro b' done' (h | h) <;> cases h
    exact hslot
  · intro b' hb' _
    obtain rfl : b = b' := Option.some.inj (hslot.symm.trans hb')
    cases hany : w.db.receipts.any b.matches with
    | true =>
      show (batchRows b).Subperm (tableRows (w.db.write b committedAt))
      rw [Tables.write, if_pos hany]
      exact hs.slot b hslot hany
    | false =>
      have hperm := tableRows_write (.inl (fresh_of_any_matches hany)) committedAt
      exact (List.sublist_append_left _ _).subperm.trans hperm.symm.subperm
  · rintro b' done' h
    cases h
    exact any_matches_write b committedAt
  · simp

variable [Div F]

theorem sound_step {cfg : Cfg} {w w' : State F} (hs : Sound w) {lbl : Label F} (h : step cfg w lbl = some w') :
    Sound w' := by
  cases step_moves h with
  | arrive =>
    rename_i f now _ _
    obtain ⟨_, _, _, he, _⟩ := arrive_frame cfg w f now
    rw [he]
    exact hs.congr rfl rfl rfl rfl rfl rfl
  | append => exact hs.congr (List.length_modify _ _ _) rfl rfl rfl rfl rfl
  | found => exact hs.congr rfl rfl rfl rfl rfl rfl
  | create => exact hs.congr rfl rfl rfl rfl rfl rfl
  | update => exact hs.congr rfl rfl rfl rfl rfl rfl
  | detached => exact hs.congr rfl rfl rfl rfl rfl rfl
  | lockRetry _ hr => exact hs.lockRetry hr
  | lock _ hr => exact hs.lock hr
  | swap hf => exact hs.swap hf
  | scan hf => exact hs.goOn hf rfl rfl (List.Sublist.refl _) (by simp)
  | readAll hf => exact hs.goOn hf rfl rfl (List.Sublist.refl _) (by simp)
  | read hf => exact hs.goOn hf rfl rfl (List.Sublist.refl _) (by simp)
  | copy hf => exact hs.goOn hf rfl rfl (List.sublist_cons_self _ _) (by simp)
  | make hf hb hfresh =>
    refine hs.goOn hf rfl rfl (List.Sublist.refl _) ?_
    rintro b' done' h
    cases h
    exact hfresh
  | park hf => exact hs.park hf
  | write hf => exact hs.write hf
  | clear hf => exact hs.clear hf
  | pop hf =>
    refine hs.setFlush rfl rfl rfl rfl (List.nil_sublist _) ?_ (by simp) (by simp) (by simp)
    rintro f h hc
    cases h
    cases hc
  | unlock => exact hs.endFlush
  | fail => exact hs.endFlush
  | stop => exact hs.congr rfl rfl rfl rfl rfl rfl
  | lastRetry _ _ hr => exact (hs.lockRetry hr).congr rfl rfl rfl rfl rfl rfl
  | last _ _ hr => exact (hs.lock hr).congr rfl rfl rfl rfl rfl rfl
  | skipLast => exact hs.congr rfl rfl rfl rfl rfl rfl
  | snapshot => exact hs.congr rfl rfl rfl rfl rfl rfl
  | save => exact hs.congr rfl rfl rfl rfl rfl rfl
  | saveFails => exact hs.congr rfl rfl rfl rfl rfl rfl

/-! ## Nothing that waits disappears -/

omit [CommRing F] [LinearOrder F] [Div F] in
theorem allRows_congr {w w' : State F} (hlists : w'.lists = w.lists) (hrefs : w'.refs = w.refs)
    (hretry : w'.retry = w.retry)
    (hrec : w'.db.receipts = w.db.receipts) (hrows : tableRows w'.db = tableRows w.db)
    (hfl : w'.flushRefs = w.flushRefs)
    (hloc : w'.locals = w.locals) : w'.allRows = w.allRows := by
  have hlist : w'.list = w.list := by funext r; rw [State.list, hlists, State.list]
  rw [State.allRows, State.waiting, roots_congr hrefs hfl, hlist, hloc, unstoredSlot_congr hretry hrec, hrows,
    State.allRows,
    State.waiting]

omit [CommRing F] [LinearOrder F] [Div F] in
/-- The rows of the flush's lists and locals and of the slot, where the buffers stay as they are. -/
theorem allRows_perm {w w' : State F} (hlists : w'.lists = w.lists) (hrefs : w'.refs = w.refs)
    (h : (w'.flushRefs.flatMap w.list ++ (w'.locals ++ w'.unstoredSlot) ++ tableRows w'.db).Perm
      (w.flushRefs.flatMap w.list ++ (w.locals ++ w.unstoredSlot) ++ tableRows w.db)) : w'.allRows.Perm w.allRows := by
  have hlist : w'.list = w.list := by funext r; rw [State.list, hlists, State.list]
  simp only [State.allRows, State.waiting, State.roots, hrefs, hlist, List.flatMap_append, List.append_assoc] at h ⊢
  exact h.append_left _

/-- A step that is no exception, and adds no row, only moves rows. -/
theorem allRows_step {cfg : Cfg} {w w' : State F} (hs : Sound w) (hi : w.ingest = none)
    {lbl : Label F} (hl : lbl ≠ .fail)
    (h : step cfg w lbl = some w') : w'.allRows.Perm w.allRows := by
  cases step_moves h with
  | arrive =>
    rename_i f now _ _
    obtain ⟨_, _, _, he, _⟩ := arrive_frame cfg w f now
    rw [he]
    exact .of_eq (allRows_congr rfl rfl rfl rfl rfl rfl rfl)
  | append hi' => exact absurd (hi.symm.trans hi') (by simp)
  | found hi' => exact absurd (hi.symm.trans hi') (by simp)
  | create hi' => exact absurd (hi.symm.trans hi') (by simp)
  | update hi' => exact absurd (hi.symm.trans hi') (by simp)
  | detached hi' => exact absurd (hi.symm.trans hi') (by simp)
  | lockRetry hf => exact .of_eq (allRows_congr rfl rfl rfl rfl rfl (by simp [State.flushRefs, hf, Flush.refs])
      (by simp [State.locals, hf, Flush.locals]))
  | lock hf => exact .of_eq (allRows_congr rfl rfl rfl rfl rfl (by simp [State.flushRefs, hf, Flush.refs])
      (by simp [State.locals, hf, Flush.locals]))
  | swap hf =>
    obtain ⟨-, -, hrows⟩ := swap_roots hs.nodup hs.bound hf rfl
    refine List.Perm.append (hrows.append ?_) (List.Perm.refl _)
    refine .of_eq ?_
    simp [State.locals, hf, Flush.locals, State.unstoredSlot]
  | scan hf => exact .of_eq (allRows_congr rfl rfl rfl rfl rfl (by simp [State.flushRefs, hf, Flush.refs])
      (by simp [State.locals, hf, Flush.locals]))
  | readAll hf => exact .of_eq (allRows_congr rfl rfl rfl rfl rfl (by simp [State.flushRefs, hf, Flush.refs])
      (by simp [State.locals, hf, Flush.locals]))
  | read hf => exact .of_eq (allRows_congr rfl rfl rfl rfl rfl (by simp [State.flushRefs, hf, Flush.refs])
      (by simp [State.locals, hf, Flush.locals]))
  | copy hf =>
    refine allRows_perm rfl rfl ?_
    classical
    rw [List.perm_iff_count]
    intro x
    simp only [State.flushRefs, State.locals, State.unstoredSlot, hf, Flush.refs, Flush.locals, List.flatMap_cons,
      List.count_append]
    omega
  | make hf hb =>
    subst hb
    refine allRows_perm rfl rfl ?_
    simp only [State.flushRefs, State.locals, State.unstoredSlot, hf, Flush.refs, Flush.locals, List.flatMap_nil,
      List.nil_append]
    exact ((batchRows_make _ _ _ _).append_right _).append_right _
  | park hf =>
    rename_i b done
    refine allRows_perm rfl rfl (.of_eq ?_)
    simp [State.flushRefs, State.locals, State.unstoredSlot, hf, Flush.refs, Flush.locals, hs.slotFree _ hf rfl,
      any_matches_of_fresh (hs.made b done hf)]
  | write hf =>
    rename_i b done committedAt
    have hslot : w.retry = some b := hs.slotFull b done (.inl hf)
    refine allRows_perm rfl rfl ?_
    simp only [State.flushRefs, State.locals, State.unstoredSlot, hf, hslot, Flush.refs, Flush.locals,
      List.flatMap_nil, List.nil_append]
    cases hany : w.db.receipts.any b.matches with
    | true =>
      rw [Tables.write, if_pos hany, if_pos rfl, if_pos hany]
    | false =>
      have hempty : (if (w.db.write b committedAt).receipts.any b.matches = true then [] else batchRows b) = [] := by
        rcases any_matches_write (t := w.db) b committedAt with h | h
        · rw [if_pos h]
        · rw [h, ite_self]
      rw [hempty, if_neg (by simp), List.nil_append]
      exact tableRows_write (.inl (fresh_of_any_matches hany)) committedAt
  | clear hf =>
    rename_i b done
    have hslot : w.retry = some b := hs.slotFull b done (.inr hf)
    have hempty : (if w.db.receipts.any b.matches = true then [] else batchRows b) = [] := by
      rcases hs.stored b done hf with h | h
      · rw [if_pos h]
      · rw [h, ite_self]
    refine allRows_perm rfl rfl (.of_eq ?_)
    simp only [State.flushRefs, State.locals, State.unstoredSlot, hf, hslot, hempty, Flush.refs, Flush.locals]
  | pop hf => exact .of_eq (allRows_congr rfl rfl rfl rfl rfl (by simp [State.flushRefs, hf, Flush.refs])
      (by simp [State.locals, hf, Flush.locals]))
  | unlock hf => exact .of_eq (allRows_congr rfl rfl rfl rfl rfl
      (by simp [State.flushRefs, hf, Flush.refs, State.endFlush])
      (by simp [State.locals, hf, Flush.locals, State.endFlush]))
  | fail => exact absurd rfl hl
  | stop => exact .of_eq (allRows_congr rfl rfl rfl rfl rfl rfl rfl)
  | lastRetry _ hf => exact .of_eq (allRows_congr rfl rfl rfl rfl rfl (by simp [State.flushRefs, hf, Flush.refs])
      (by simp [State.locals, hf, Flush.locals]))
  | last _ hf => exact .of_eq (allRows_congr rfl rfl rfl rfl rfl (by simp [State.flushRefs, hf, Flush.refs])
      (by simp [State.locals, hf, Flush.locals]))
  | skipLast => exact .of_eq (allRows_congr rfl rfl rfl rfl rfl rfl rfl)
  | snapshot => exact .of_eq (allRows_congr rfl rfl rfl rfl rfl rfl rfl)
  | save => exact .of_eq (allRows_congr rfl rfl rfl rfl rfl rfl rfl)
  | saveFails => exact .of_eq (allRows_congr rfl rfl rfl rfl rfl rfl rfl)

/-- Whatever happens after the last flush has begun, no row waits outside a flush. -/
theorem quiet_step {cfg : Cfg} {w w' : State F} (hs : Sound w) (hq : Quiet w) (hp : w.phase.past)
    (hi : w.ingest = none) {lbl : Label F}
    (hl : lbl ≠ .fail) (h : step cfg w lbl = some w') : Quiet w' := by
  cases step_moves h with
  | arrive _ hr => exact absurd hr hp.1
  | append hi' => exact absurd (hi.symm.trans hi') (by simp)
  | found hi' => exact absurd (hi.symm.trans hi') (by simp)
  | create hi' => exact absurd (hi.symm.trans hi') (by simp)
  | update hi' => exact absurd (hi.symm.trans hi') (by simp)
  | detached hi' => exact absurd (hi.symm.trans hi') (by simp)
  | lockRetry hf hr => exact absurd ((hq.slot_free (by simp [hf])).symm.trans hr) (by simp)
  | lock hf hr =>
    refine hq.setFlush rfl rfl hr ?_
    rw [emptied_of_not_swap (w := w) (by simp [hf])]
    exact emptied_subset _
  | swap hf hk => exact hq.swap hs hf hk
  | scan hf hlen =>
    refine hq.setFlush rfl rfl (hs.slotFree _ hf rfl) ?_
    have hall : w.emptied = kinds := by
      unfold State.emptied
      rw [hf]
      split
      · rename_i _ _ heq
        cases heq
        rw [hlen, List.take_length]
      · rfl
    rw [hall]
    exact emptied_subset _
  | readAll hf =>
    refine hq.setFlush rfl rfl (hs.slotFree _ hf rfl) ?_
    rw [emptied_of_not_swap (w := w) (by simp [hf])]
    exact emptied_subset _
  | read hf =>
    refine hq.setFlush rfl rfl (hs.slotFree _ hf rfl) ?_
    rw [emptied_of_not_swap (w := w) (by simp [hf])]
    exact emptied_subset _
  | copy hf =>
    refine hq.setFlush rfl rfl (hs.slotFree _ hf rfl) ?_
    rw [emptied_of_not_swap (w := w) (by simp [hf])]
    exact emptied_subset _
  | make hf =>
    refine hq.setFlush rfl rfl (hs.slotFree _ hf rfl) ?_
    rw [emptied_of_not_swap (w := w) (by simp [hf])]
    exact emptied_subset _
  | park hf =>
    rename_i b done
    refine hq.congr rfl rfl ?_ ?_
    · rw [emptied_of_not_swap (w := w) (by simp [hf])]
      exact emptied_subset _
    · rintro b' hb'
      cases hb'
      exact ⟨done, .inl rfl⟩
  | write hf =>
    rename_i b done _
    refine hq.congr rfl rfl ?_ ?_
    · rw [emptied_of_not_swap (w := w) (by simp [hf])]
      exact emptied_subset _
    · intro b' hb'
      obtain rfl := Option.some.inj ((hs.slotFull b done (.inl hf)).symm.trans hb')
      exact ⟨done, .inr rfl⟩
  | clear hf =>
    refine hq.setFlush rfl rfl rfl ?_
    rw [emptied_of_not_swap (w := w) (by simp [hf])]
    exact emptied_subset _
  | pop hf =>
    refine hq.setFlush rfl rfl (hq.slot_free (by simp [hf])) ?_
    rw [emptied_of_not_swap (w := w) (by simp [hf])]
    exact emptied_subset _
  | unlock hf =>
    refine hq.setFlush rfl rfl (hq.slot_free (by simp [hf])) ?_
    rw [emptied_of_not_swap (w := w) (by simp [hf])]
    exact emptied_subset _
  | fail => exact absurd rfl hl
  | stop hr => exact absurd hr hp.1
  | lastRetry hr => exact absurd hr hp.2
  | last hr => exact absurd hr hp.2
  | skipLast hr => exact absurd hr hp.2
  | snapshot hp' =>
    refine hq.congr rfl rfl ?_ hq.slot
    rw [emptied_of_phase (w := w) (by simp [hp'])]
    exact emptied_subset _
  | save hp' hf =>
    refine hq.congr rfl rfl ?_ hq.slot
    rw [emptied_of_phase (w := w) (by simp [hp'])]
    exact emptied_subset _
  | saveFails hp' =>
    refine hq.congr rfl rfl ?_ hq.slot
    rw [emptied_of_phase (w := w) (by simp [hp'])]
    exact emptied_subset _

end

end Writer
