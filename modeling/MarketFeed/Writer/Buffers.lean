import Mathlib.Data.List.Perm.Basic
import MarketFeed.Storage.RetrySafe
import MarketFeed.Writer.Moves
/-!
# No row lost, none twice (writer.py:159-259)

An accepted row is in one of five places: a buffer, a list the flush has taken and not copied yet, the
flush's locals, the retry slot, or storage. The lists reachable from `self` and from the flush are the
roots; an append through any other reference is lost. What only the locals hold is lost with an
exception, and a batch that is stored while the slot still holds it is in two places.
-/

namespace Writer

open Storage Keyed Clock Lts

variable {F : Type}

/-! ## Where the rows are -/

def batchRows (b : StorageBatch F) : List (Row F) := b.trades.map .trade ++ (b.books.map .book ++ b.signals.map .signal)

def tableRows (t : Tables F) : List (Row F) := t.trades.map .trade ++ (t.books.map .book ++ t.signals.map .signal)

/-- The lists a flush has taken and not copied. -/
def Flush.refs : Flush F → List Nat
  | .swap held => held
  | .read held _ _ _ => held
  | .copy uncopied _ _ _ => uncopied
  | _ => []

/-- The rows that only the locals of a flush hold. -/
def Flush.locals : Flush F → List (Row F)
  | .copy _ copied _ _ => copied
  | .made b _ => batchRows b
  | _ => []

/-- Before the batch is parked. -/
def Flush.collecting : Flush F → Bool
  | .write .. | .stored .. | .pop _ => false
  | _ => true

def State.flushRefs (w : State F) : List Nat := match w.flush with | some f => f.refs | none => []

def State.locals (w : State F) : List (Row F) := match w.flush with | some f => f.locals | none => []

/-- Written, the slot not cleared yet. -/
def State.inStored (w : State F) : Bool := match w.flush with | some (.stored ..) => true | _ => false

/-- The lists that are reachable. -/
def State.roots (w : State F) : List Nat := kinds.map w.refs ++ w.flushRefs

def State.buffered (w : State F) : List (Row F) := kinds.flatMap fun k => w.list (w.refs k)

/-- What an exception in a flush that has not parked its batch would lose. -/
def State.held (w : State F) : List (Row F) := w.flushRefs.flatMap w.list ++ w.locals

def State.retryRows (w : State F) : List (Row F) := match w.retry with | some b => batchRows b | none => []

/-- The rows of the slot that are not in storage. -/
def State.parked (w : State F) : List (Row F) := if w.inStored then [] else w.retryRows

/-! ## The condition -/

/-- An exception now loses rows, or leaves them both in the slot and in storage. -/
def State.losesOnFail (w : State F) : Bool :=
  match w.flush with
  | some (.stored b _) => !(batchRows b).isEmpty
  | _ => !w.held.isEmpty

/-- The row about to be appended goes to a list that nobody will read. -/
def State.staleAppend (w : State F) : Bool :=
  match w.ingest with
  | some (.append _ ref _) => !w.roots.contains ref
  | _ => false

def lossless (w : State F) : Label F → Bool
  | .fail => !w.losesOnFail
  | .append => !w.staleAppend
  | _ => true

/-! ## The invariant -/

structure Kept (w : State F) : Prop where
  nodup : w.roots.Nodup
  bound : ∀ r ∈ w.roots, r < w.lists.length
  rows : (w.roots.flatMap w.list ++ (w.locals ++ (w.parked ++ tableRows w.db))).Perm w.accepted
  slotFree : ∀ f, w.flush = some f → f.collecting = true → w.retry = none
  slotFull : ∀ b done, w.flush = some (.write b done) ∨ w.flush = some (.stored b done) → w.retry = some b
  fresh : ∀ b, w.retry = some b → w.inStored = false → Fresh w.db b ∨ batchRows b = []
  madeFresh : ∀ b done, w.flush = some (.made b done) → Fresh w.db b

theorem kept_init : Kept (State.init : State F) where
  nodup := by
    show [0, 1, 2].Nodup
    decide
  bound := by
    intro r hr
    have hr : r ∈ [0, 1, 2] := hr
    have h3 : (State.init : State F).lists.length = 3 := rfl
    simp only [List.mem_cons, List.not_mem_nil, or_false] at hr
    omega
  rows := List.Perm.refl _
  slotFree := by simp [State.init]
  slotFull := by simp [State.init]
  fresh := by simp [State.init]
  madeFresh := by simp [State.init]

/-- A step that leaves the lists, and moves rows between the locals, the slot and storage only. -/
theorem Kept.moved {w w' : State F} (hk : Kept w) (hlists : w'.lists = w.lists) (hrefs : w'.refs = w.refs)
    (hacc : w'.accepted = w.accepted) (hfl : w'.flushRefs = w.flushRefs)
    (hrows : (w'.locals ++ (w'.parked ++ tableRows w'.db)).Perm (w.locals ++ (w.parked ++ tableRows w.db)))
    (hfree : ∀ f, w'.flush = some f → f.collecting = true → w'.retry = none)
    (hfull : ∀ b done, w'.flush = some (.write b done) ∨ w'.flush = some (.stored b done) → w'.retry = some b)
    (hfresh : ∀ b, w'.retry = some b → w'.inStored = false → Fresh w'.db b ∨ batchRows b = [])
    (hmade : ∀ b done, w'.flush = some (.made b done) → Fresh w'.db b) : Kept w' := by
  have hroots : w'.roots = w.roots := by rw [State.roots, hrefs, hfl, State.roots]
  have hlist : w'.list = w.list := by funext r; rw [State.list, hlists, State.list]
  refine ⟨hroots ▸ hk.nodup, ?_, ?_, hfree, hfull, hfresh, hmade⟩
  · rw [hroots, hlists]
    exact hk.bound
  · rw [hroots, hlist, hacc]
    exact (hrows.append_left _).trans hk.rows

/-- A step that moves no row. -/
theorem Kept.frame {w w' : State F} (hk : Kept w) (hlists : w'.lists = w.lists) (hrefs : w'.refs = w.refs)
    (hretry : w'.retry = w.retry) (hacc : w'.accepted = w.accepted) (hdb : tableRows w'.db = tableRows w.db)
    (hrec : w'.db.receipts = w.db.receipts) (hfl : w'.flushRefs = w.flushRefs) (hloc : w'.locals = w.locals)
    (hst : w'.inStored = w.inStored) (hfree : ∀ f, w'.flush = some f → f.collecting = true → w.retry = none)
    (hfull : ∀ b done, w'.flush = some (.write b done) ∨ w'.flush = some (.stored b done) → w.retry = some b)
    (hmade : ∀ b done, w'.flush = some (.made b done) → Fresh w.db b) : Kept w' := by
  have hparked : w'.parked = w.parked := by
    rw [State.parked, hst, State.retryRows, hretry, State.parked, State.retryRows]
  have hfresh : ∀ b, Fresh w.db b → Fresh w'.db b := fun b hb r hr => hb r (hrec ▸ hr)
  refine hk.moved hlists hrefs hacc hfl ?_ ?_ ?_ ?_ fun b done h => hfresh b (hmade b done h)
  · rw [hloc, hparked, hdb]
  · rw [hretry]
    exact hfree
  · rw [hretry]
    exact hfull
  · intro b hb hs
    rw [hretry] at hb
    rw [hst] at hs
    exact (hk.fresh b hb hs).imp (hfresh b) id

/-- … and that leaves the flush as it is. -/
theorem Kept.sameFlush {w w' : State F} (hk : Kept w) (hlists : w'.lists = w.lists) (hrefs : w'.refs = w.refs)
    (hretry : w'.retry = w.retry) (hacc : w'.accepted = w.accepted) (hdb : tableRows w'.db = tableRows w.db)
    (hrec : w'.db.receipts = w.db.receipts) (hflush : w'.flush = w.flush) : Kept w' := by
  refine hk.frame hlists hrefs hretry hacc hdb hrec ?_ ?_ ?_ ?_ ?_ ?_
  · rw [State.flushRefs, hflush, State.flushRefs]
  · rw [State.locals, hflush, State.locals]
  · rw [State.inStored, hflush, State.inStored]
  · rw [hflush]; exact hk.slotFree
  · rw [hflush]; exact hk.slotFull
  · rw [hflush]; exact hk.madeFresh

/-- A flush step that touches no list: the same refs and locals, and no batch stored. -/
theorem Kept.flushStep {w w' : State F} (hk : Kept w) (hlists : w'.lists = w.lists) (hrefs : w'.refs = w.refs)
    (hretry : w'.retry = w.retry) (hacc : w'.accepted = w.accepted) (hdb : w'.db = w.db)
    (hfl : w'.flushRefs = w.flushRefs) (hloc : w'.locals = w.locals) (hst : w.inStored = false)
    (hst' : w'.inStored = false) (hfree : ∀ f, w'.flush = some f → f.collecting = true → w.retry = none)
    (hfull : ∀ b done, w'.flush = some (.write b done) → w.retry = some b)
    (hmade : ∀ b done, w'.flush ≠ some (.made b done)) : Kept w' := by
  refine hk.frame hlists hrefs hretry hacc (by rw [hdb]) (by rw [hdb]) hfl hloc (hst'.trans hst.symm) hfree ?_ ?_
  · rintro b done (h | h)
    · exact hfull b done h
    · rw [State.inStored, h] at hst'
      cases hst'
  · intro b done h
    exact absurd h (hmade b done)

/-- A flush that still collects, and has the lists and the locals it had. -/
theorem Kept.goOn {w : State F} (hk : Kept w) {f f' : Flush F} (hf : w.flush = some f) (hc : f.collecting = true)
    (hc' : f'.collecting = true) (hfl : f'.refs = f.refs) (hloc : f'.locals = f.locals)
    (hmade : ∀ b done, f' ≠ .made b done) : Kept { w with flush := some f' } := by
  have hst : w.inStored = false := by
    rw [State.inStored, hf]
    cases f <;> first | rfl | cases hc
  refine hk.flushStep rfl rfl rfl rfl rfl ?_ ?_ hst ?_ ?_ ?_ ?_
  · rw [State.flushRefs, State.flushRefs, hf]
    exact hfl
  · rw [State.locals, State.locals, hf]
    exact hloc
  · rw [State.inStored]
    cases f' <;> first | rfl | cases hc'
  · exact fun _ _ _ => hk.slotFree f hf hc
  · rintro b done hb
    cases hb
    cases hc'
  · rintro b done hb
    exact hmade b done (Option.some.inj hb)

theorem kept_lock {w : State F} (hk : Kept w) (hf : w.flush = none) (hr : w.retry = none) :
    Kept { w with flush := some (.swap []) } := by
  refine hk.flushStep rfl rfl rfl rfl rfl ?_ ?_ ?_ rfl (fun _ _ _ => hr) (by simp) (by simp)
  · rw [State.flushRefs, State.flushRefs, hf]
    rfl
  · rw [State.locals, State.locals, hf]
    rfl
  · rw [State.inStored, hf]

theorem kept_lockRetry {w : State F} (hk : Kept w) (hf : w.flush = none) {b : StorageBatch F} (hr : w.retry = some b) :
    Kept { w with flush := some (.write b []) } := by
  refine hk.flushStep rfl rfl rfl rfl rfl ?_ ?_ ?_ rfl ?_ ?_ (by simp)
  · rw [State.flushRefs, State.flushRefs, hf]
    rfl
  · rw [State.locals, State.locals, hf]
    rfl
  · rw [State.inStored, hf]
  · rintro f hf' hc
    cases hf'
    cases hc
  · rintro b' done hb
    cases hb
    exact hr

/-! ## Counting -/

theorem batchRows_make (uuid digest : String) (copied : List (Row F)) (rows : List (BarRow F)) :
    (batchRows (makeStorageBatch uuid digest copied rows)).Perm copied := by
  induction copied with
  | nil => exact List.Perm.refl _
  | cons r copied ih =>
    cases r with
    | trade r => exact ih.cons _
    | book r =>
      refine List.Perm.trans ?_ (ih.cons _)
      exact List.perm_middle
    | signal r =>
      refine List.Perm.trans ?_ (ih.cons _)
      have hassoc : ∀ xs ys zs : List (Row F),
          (xs ++ (ys ++ .signal r :: zs)).Perm (.signal r :: (xs ++ (ys ++ zs))) := by
        intro xs ys zs
        rw [← List.append_assoc, ← List.append_assoc]
        exact List.perm_middle
      exact hassoc _ _ _

theorem getD_modify_ne {lists : List (List (Row F))} {row : Row F} {ref r : Nat} (h : r ≠ ref) :
    (lists.modify ref (· ++ [row])).getD r [] = lists.getD r [] := by
  simp [List.getD_eq_getElem?_getD, Ne.symm h]

theorem getD_modify_self {lists : List (List (Row F))} {row : Row F} {ref : Nat} (h : ref < lists.length) :
    (lists.modify ref (· ++ [row])).getD ref [] = lists.getD ref [] ++ [row] := by
  simp [List.getD_eq_getElem?_getD, h]

/-- One append to a list that occurs once among the roots. -/
theorem roots_append {lists : List (List (Row F))} {row : Row F} {ref : Nat} (hb : ref < lists.length)
    {roots : List Nat}
    (hn : roots.Nodup) (hr : ref ∈ roots) :
    (roots.flatMap fun r => (lists.modify ref (· ++ [row])).getD r []).Perm
      (row :: roots.flatMap fun r => lists.getD r []) := by
  induction roots with
  | nil => cases hr
  | cons r roots ih =>
    obtain ⟨hnot, hn⟩ := List.nodup_cons.1 hn
    rw [List.flatMap_cons, List.flatMap_cons]
    by_cases hrr : r = ref
    · subst hrr
      have hsame : (roots.flatMap fun x => (lists.modify r (· ++ [row])).getD x []) = roots.flatMap fun x =>
          lists.getD x [] :=
        List.flatMap_congr fun x hx => getD_modify_ne (by rintro rfl; exact hnot hx)
      rw [getD_modify_self hb, hsame, List.append_assoc]
      exact List.perm_middle
    · have hmem : ref ∈ roots := (List.mem_cons.1 hr).resolve_left (Ne.symm hrr)
      rw [getD_modify_ne hrr]
      exact (ih hn hmem).append_left _ |>.trans List.perm_middle

theorem getD_snoc (lists : List (List (Row F))) {r : Nat} (h : r < lists.length) :
    (lists ++ [[]]).getD r [] = lists.getD r [] := by
  simp [List.getD_eq_getElem?_getD, List.getElem?_append_left h]

theorem getD_snoc_self (lists : List (List (Row F))) : (lists ++ [[]]).getD lists.length [] = [] := by
  simp [List.getD_eq_getElem?_getD]

/-- Taking a buffer: one more root, the new empty list. -/
theorem roots_swap (refs : Kind → Nat) (held : List Nat) (k : Kind) (new : Nat) :
    (kinds.map (Function.update refs k new) ++ (held ++ [refs k])).Perm (new :: (kinds.map refs ++ held)) := by
  rw [List.perm_iff_count]
  intro a
  cases k <;> simp [kinds, Function.update, List.count_cons, List.count_append] <;> omega

/-! ## Every step that loses nothing keeps the rows -/

theorem kept_append {w : State F} (hk : Kept w) {row : Row F} {ref : Nat} {t : Option (Trade F)}
    (hi : w.ingest = some (.append row ref t)) (hok : lossless w .append = true) :
    Kept { w with lists := w.lists.modify ref (· ++ [row]), accepted := w.accepted ++ [row], ingest := t.map .lookup } := by
  have hmem : ref ∈ w.roots := by simpa [lossless, State.staleAppend, hi] using hok
  refine ⟨hk.nodup, ?_, ?_, hk.slotFree, hk.slotFull, hk.fresh, hk.madeFresh⟩
  · intro r hr
    rw [List.length_modify]
    exact hk.bound r hr
  · have hroots := @roots_append _ _ row _ (hk.bound ref hmem) _ hk.nodup hmem
    refine (hroots.append_right _).trans ?_
    refine (hk.rows.cons row).trans ?_
    exact (List.perm_append_singleton row w.accepted).symm

/-- The reachable lists after a buffer is taken: distinct, there, and with the same rows. -/
theorem swap_roots {w w' : State F} (hn : w.roots.Nodup) (hb : ∀ r ∈ w.roots, r < w.lists.length)
    {held : List Nat} {k : Kind}
    (hf : w.flush = some (.swap held))
    (hw : w' = { w with
      flush := some (.swap (held ++ [w.refs k]))
      refs := Function.update w.refs k w.lists.length
      lists := w.lists ++ [[]] }) :
    w'.roots.Nodup ∧ (∀ r ∈ w'.roots, r < w'.lists.length) ∧
      (w'.roots.flatMap w'.list).Perm (w.roots.flatMap w.list) := by
  have hroots : w.roots = kinds.map w.refs ++ held := by rw [State.roots, State.flushRefs, hf]; rfl
  have hroots' : w'.roots = kinds.map (Function.update w.refs k w.lists.length) ++ (held ++ [w.refs k]) := by
    rw [hw]; rfl
  have hperm := roots_swap w.refs held k w.lists.length
  have hnew : w.lists.length ∉ kinds.map w.refs ++ held := fun h => by
    have := hb _ (hroots ▸ h)
    omega
  refine ⟨?_, ?_, ?_⟩
  · rw [hroots']
    exact hperm.symm.nodup (List.nodup_cons.2 ⟨hnew, hroots ▸ hn⟩)
  · rw [hroots', hw]
    intro r hr
    show r < (w.lists ++ [[]]).length
    rw [List.length_append, List.length_singleton]
    rcases List.mem_cons.1 (hperm.mem_iff.1 hr) with rfl | hr
    · omega
    · have := hb r (hroots ▸ hr)
      omega
  · rw [hroots', hw]
    refine (hperm.flatMap_right _).trans ?_
    show (w.lists.length :: (kinds.map w.refs ++ held)).flatMap (fun r => (w.lists ++ [[]]).getD r []) |>.Perm _
    rw [List.flatMap_cons, getD_snoc_self, List.nil_append, hroots]
    rw [List.flatMap_congr fun r hr => getD_snoc w.lists (hb r (hroots ▸ hr))]
    exact List.Perm.refl _

theorem kept_swap {w : State F} (hk : Kept w) {held : List Nat} {k : Kind} (hf : w.flush = some (.swap held)) :
    Kept { w with
      flush := some (.swap (held ++ [w.refs k]))
      refs := Function.update w.refs k w.lists.length
      lists := w.lists ++ [[]] } := by
  obtain ⟨hnodup, hbound, hlists⟩ := swap_roots hk.nodup hk.bound hf (k := k) rfl
  refine ⟨hnodup, hbound, ?_, ?_, ?_, ?_, ?_⟩
  · have hloc : w.locals = [] := by rw [State.locals, hf]; rfl
    have hst : w.inStored = false := by rw [State.inStored, hf]
    have hrows := hk.rows
    rw [hloc, State.parked, hst] at hrows
    exact (hlists.append_right _).trans hrows
  · rintro f hf' _
    cases hf'
    exact hk.slotFree _ hf rfl
  · simp
  · intro b hb _
    exact hk.fresh b hb (by rw [State.inStored, hf])
  · simp

theorem kept_copy {w : State F} (hk : Kept w) {ref : Nat} {refs : List Nat} {copied : List (Row F)} {done : List BarKey}
    {rows : List (BarRow F)} (hf : w.flush = some (.copy (ref :: refs) copied done rows)) :
    Kept { w with flush := some (.copy refs (copied ++ w.list ref) done rows) } := by
  have hroots : w.roots = kinds.map w.refs ++ ref :: refs := by rw [State.roots, State.flushRefs, hf]; rfl
  have hsub : (kinds.map w.refs ++ refs).Sublist w.roots := by
    rw [hroots]
    exact (List.sublist_cons_self ref refs).append_left _
  refine ⟨hk.nodup.sublist hsub, fun r hr => hk.bound r (hsub.subset hr), ?_, ?_, ?_, ?_, ?_⟩
  · have hrows := hk.rows
    have hloc : w.locals = copied := by rw [State.locals, hf]; rfl
    have hst : w.inStored = false := by rw [State.inStored, hf]
    rw [hroots, hloc, State.parked, hst] at hrows
    refine List.Perm.trans ?_ hrows
    show ((kinds.map w.refs ++ refs).flatMap w.list ++
        ((copied ++ w.list ref) ++ (w.retryRows ++ tableRows w.db))).Perm _
    classical
    rw [List.perm_iff_count]
    intro x
    simp only [List.flatMap_append, List.flatMap_cons, List.count_append, Bool.false_eq_true, if_false]
    omega
  · rintro f hf' _
    cases hf'
    exact hk.slotFree _ hf rfl
  · simp
  · intro b hb _
    exact hk.fresh b hb (by rw [State.inStored, hf])
  · simp

theorem kept_make {w : State F} (hk : Kept w) {uuid digest : String} {copied : List (Row F)} {done : List BarKey}
    {rows : List (BarRow F)} (hf : w.flush = some (.copy [] copied done rows))
    (hfresh : Fresh w.db (makeStorageBatch uuid digest copied rows)) :
    Kept { w with flush := some (.made (makeStorageBatch uuid digest copied rows) done) } := by
  have hst : w.inStored = false := by rw [State.inStored, hf]
  refine hk.moved rfl rfl rfl ?_ ?_ ?_ ?_ ?_ ?_
  · rw [State.flushRefs, State.flushRefs, hf]
    rfl
  · have hloc : w.locals = copied := by rw [State.locals, hf]; rfl
    have hpark : w.parked = w.retryRows := by rw [State.parked, hst]; rfl
    rw [hloc, hpark]
    exact (batchRows_make uuid digest copied rows).append_right _
  · rintro f hf' _
    cases hf'
    exact hk.slotFree _ hf rfl
  · simp
  · intro b hb _
    exact hk.fresh b hb hst
  · rintro b done' hb
    cases hb
    exact hfresh

theorem kept_park {w : State F} (hk : Kept w) {b : StorageBatch F} {done : List BarKey}
    (hf : w.flush = some (.made b done)) :
    Kept { w with retry := some b, flush := some (.write b done) } := by
  have hnone : w.retry = none := hk.slotFree _ hf rfl
  refine hk.moved rfl rfl rfl ?_ ?_ ?_ ?_ ?_ ?_
  · rw [State.flushRefs, State.flushRefs, hf]
    rfl
  · have hloc : w.locals = batchRows b := by rw [State.locals, hf]; rfl
    have hpark : w.parked = [] := by rw [State.parked, State.retryRows, hnone]; split <;> rfl
    rw [hloc, hpark]
    exact List.Perm.refl _
  · rintro f hf' hc
    cases hf'
    cases hc
  · rintro b' done' (h | h) <;> cases h
    rfl
  · rintro b' hb' _
    cases hb'
    exact .inl (hk.madeFresh b done hf)
  · simp

theorem kept_clear {w : State F} (hk : Kept w) {b : StorageBatch F} {done : List BarKey} (hf : w.flush = some (.stored b done)) :
    Kept { w with retry := none, flush := some (.pop done) } := by
  refine hk.moved rfl rfl rfl ?_ ?_ ?_ ?_ ?_ ?_
  · rw [State.flushRefs, State.flushRefs, hf]
    rfl
  · have hloc : w.locals = [] := by rw [State.locals, hf]; rfl
    have hpark : w.parked = [] := by rw [State.parked, State.inStored, hf]; rfl
    rw [hloc, hpark]
    exact List.Perm.refl _
  · simp
  · simp
  · simp
  · simp

theorem kept_fail {w : State F} (hk : Kept w) {fl : Flush F} (hf : w.flush = some fl) (hok : lossless w .fail = true) :
    Kept w.endFlush := by
  have hsub : (kinds.map w.refs).Sublist w.roots := List.sublist_append_left _ _
  have hheld : w.held = [] ∧ w.parked = w.retryRows ∧
      ∀ b, w.retry = some b → w.inStored = true → batchRows b = [] := by
    have hok : w.losesOnFail = false := by simpa [lossless] using hok
    by_cases hs : ∃ b done, fl = .stored b done
    · obtain ⟨b, done, rfl⟩ := hs
      have hb : batchRows b = [] := by simpa [State.losesOnFail, hf] using hok
      have hslot : w.retry = some b := hk.slotFull b done (.inr hf)
      refine ⟨by simp [State.held, State.flushRefs, State.locals, hf, Flush.refs, Flush.locals], ?_, ?_⟩
      · have hnil : w.retryRows = [] := by rw [State.retryRows, hslot]; exact hb
        rw [State.parked, hnil, ite_self]
      · intro b' hb' _
        rw [hslot] at hb'
        cases hb'
        exact hb
    · have hst : w.inStored = false := by
        rw [State.inStored, hf]
        cases fl with
        | stored b done => exact absurd ⟨b, done, rfl⟩ hs
        | _ => rfl
      refine ⟨?_, by rw [State.parked, hst]; rfl, fun b _ hs' => absurd (hst.symm.trans hs') (by simp)⟩
      have hh : (!w.held.isEmpty) = false := by
        rw [State.losesOnFail, hf] at hok
        cases fl with
        | stored b done => exact absurd ⟨b, done, rfl⟩ hs
        | _ => exact hok
      simpa using hh
  obtain ⟨hheld, hpark, hempty⟩ := hheld
  have hroots : w.endFlush.roots = kinds.map w.refs := by simp [State.roots, State.flushRefs, State.endFlush]
  refine ⟨hroots ▸ hk.nodup.sublist hsub, fun r hr => hk.bound r (hsub.subset (hroots ▸ hr)), ?_, ?_, ?_, ?_, ?_⟩
  · have hrows := hk.rows
    rw [State.held, List.append_eq_nil_iff] at hheld
    rw [State.roots, List.flatMap_append, hheld.1, hheld.2, List.append_nil, hpark] at hrows
    rw [hroots]
    exact hrows
  · simp [State.endFlush]
  · simp [State.endFlush]
  · intro b hb _
    cases hs : w.inStored with
    | true => exact .inr (hempty b hb hs)
    | false => exact hk.fresh b hb hs
  · simp [State.endFlush]

section

variable [CommRing F] [LinearOrder F]

theorem tableRows_write {t : Tables F} {b : StorageBatch F} (h : Fresh t b ∨ batchRows b = []) (committedAt : String) :
    (tableRows (t.write b committedAt)).Perm (batchRows b ++ tableRows t) := by
  have hstore : (tableRows (t.store b committedAt)).Perm (batchRows b ++ tableRows t) := by
    rw [List.perm_iff_count]
    intro x
    simp only [tableRows, batchRows, Tables.store, List.map_append, List.count_append]
    omega
  rcases h with h | h
  · rw [write_fresh h]
    exact hstore
  · unfold Tables.write
    split
    · rw [h]
      exact List.Perm.refl _
    · exact hstore

theorem kept_write {w : State F} (hk : Kept w) {b : StorageBatch F} {done : List BarKey} {committedAt : String}
    (hf : w.flush = some (.write b done)) :
    Kept { w with db := w.db.write b committedAt, flush := some (.stored b done) } := by
  have hslot : w.retry = some b := hk.slotFull b done (.inl hf)
  have hst : w.inStored = false := by rw [State.inStored, hf]
  refine hk.moved rfl rfl rfl ?_ ?_ ?_ ?_ ?_ ?_
  · rw [State.flushRefs, State.flushRefs, hf]
    rfl
  · have hloc : w.locals = [] := by rw [State.locals, hf]; rfl
    have hpark : w.parked = batchRows b := by rw [State.parked, hst, State.retryRows, hslot]; rfl
    rw [hloc, hpark]
    exact tableRows_write (hk.fresh b hslot hst) committedAt
  · rintro f hf' hc
    cases hf'
    cases hc
  · rintro b' done' (h | h) <;> cases h
    exact hslot
  · rintro b' _ hs
    cases hs
  · simp

variable [Div F]

theorem kept_step {cfg : Cfg} {w w' : State F} (hk : Kept w) {lbl : Label F} (hok : lossless w lbl = true)
    (h : step cfg w lbl = some w') : Kept w' := by
  cases step_moves h with
  | arrive =>
    rename_i f now _ _
    obtain ⟨_, _, _, he, _⟩ := arrive_frame cfg w f now
    rw [he]
    exact hk.sameFlush rfl rfl rfl rfl rfl rfl rfl
  | append hi => exact kept_append hk hi hok
  | found => exact hk.sameFlush rfl rfl rfl rfl rfl rfl rfl
  | create => exact hk.sameFlush rfl rfl rfl rfl rfl rfl rfl
  | update => exact hk.sameFlush rfl rfl rfl rfl rfl rfl rfl
  | detached => exact hk.sameFlush rfl rfl rfl rfl rfl rfl rfl
  | lockRetry hf hr => exact kept_lockRetry hk hf hr
  | lock hf hr => exact kept_lock hk hf hr
  | swap hf => exact kept_swap hk hf
  | scan hf => exact hk.goOn hf rfl (by rfl) (by rfl) (by rfl) (by simp)
  | readAll hf => exact hk.goOn hf rfl (by rfl) (by rfl) (by rfl) (by simp)
  | read hf => exact hk.goOn hf rfl (by rfl) (by rfl) (by rfl) (by simp)
  | copy hf => exact kept_copy hk hf
  | make hf hb hfresh =>
    subst hb
    exact kept_make hk hf hfresh
  | park hf => exact kept_park hk hf
  | write hf => exact kept_write hk hf
  | clear hf => exact kept_clear hk hf
  | pop hf =>
    refine hk.flushStep rfl rfl rfl rfl rfl ?_ ?_ ?_ rfl ?_ (by simp) (by simp)
    · simp [State.flushRefs, hf, Flush.refs]
    · simp [State.locals, hf, Flush.locals]
    · simp [State.inStored, hf]
    · rintro f hf' hc
      cases hf'
      cases hc
  | unlock hf =>
    refine kept_fail hk hf ?_
    simp [lossless, State.losesOnFail, State.held, State.flushRefs, State.locals, hf, Flush.refs, Flush.locals]
  | fail hf => exact kept_fail hk hf hok
  | stop => exact hk.sameFlush rfl rfl rfl rfl rfl rfl rfl
  | lastRetry _ hf hr => exact (kept_lockRetry hk hf hr).sameFlush rfl rfl rfl rfl rfl rfl rfl
  | last _ hf hr => exact (kept_lock hk hf hr).sameFlush rfl rfl rfl rfl rfl rfl rfl
  | skipLast => exact hk.sameFlush rfl rfl rfl rfl rfl rfl rfl
  | snapshot => exact hk.sameFlush rfl rfl rfl rfl rfl rfl rfl
  | save => exact hk.sameFlush rfl rfl rfl rfl rfl rfl rfl
  | saveFails => exact hk.sameFlush rfl rfl rfl rfl rfl rfl rfl

/-- **Every accepted row is in exactly one place**, whenever no flush runs: in a buffer, in the slot kept for the
retry, or in storage, in every run whose steps lose nothing. -/
theorem accepted_rows_in_one_place {cfg : Cfg} {ls : List (Label F)} {w : State F}
    (h : Run (step cfg) (fun w l => lossless w l = true) .init ls w) (hf : w.flush = none) :
    (w.buffered ++ (w.retryRows ++ tableRows w.db)).Perm w.accepted := by
  have hk : Kept w := h.invariant kept_init fun _ _ _ hI hok hs => kept_step hI hok hs
  have hrows := hk.rows
  have hroots : w.roots.flatMap w.list = w.buffered := by
    simp [State.roots, State.flushRefs, hf, State.buffered, List.flatMap_map]
  have hloc : w.locals = [] := by simp [State.locals, hf]
  have hpark : w.parked = w.retryRows := by simp [State.parked, State.inStored, hf]
  rw [hroots, hloc, hpark] at hrows
  exact hrows

end

/-! ## Runs -/

def signalFrame (seq : UInt64) : Frame ℤ := ⟨seq, .signal ⟨"UPBIT", "KRW-BTC", 1753000000000000000, "sma", 1, 1, 100⟩⟩

/-- A flush up to the copy of the three lists. -/
def collect : List (Label ℤ) := [.lock, .swap, .swap, .swap, .scan 0, .read, .copy, .copy, .copy]

/-- The first write fails, a second row arrives, the retry stores the first. -/
def retriedWrite : List (Label ℤ) :=
  ([.arrive (signalFrame 1) 0, .append] : List (Label ℤ)) ++ collect ++
    ([.make "u1" "d1", .park, .fail, .arrive (signalFrame 2) 1, .append, .lock, .write "t1", .clear, .unlock] :
    List (Label ℤ))

theorem accepted_rows_in_one_place_retried :
    ∃ w, Run (step minuteCfg) (fun w l => lossless w l = true) .init retriedWrite w ∧ w.flush = none ∧
      (w.buffered ++ (w.retryRows ++ tableRows w.db)).Perm w.accepted := by
  obtain ⟨w, h, hf⟩ : ∃ w, Run (step minuteCfg) (fun w l => lossless w l = true) .init retriedWrite w ∧
      w.flush = none :=
    exists_run (by decide)
  exact ⟨w, h, hf, accepted_rows_in_one_place h hf⟩

/-- The lists are taken, and an exception ends the flush before the batch is parked. -/
def failedCollect : List (Label ℤ) :=
  [.arrive (signalFrame 1) 0, .append, .lock, .swap, .swap, .swap, .fail]

/-- `_ingest` has read the reference, the flush takes and copies the list, and then the row is appended. -/
def staleReference : List (Label ℤ) :=
  ([.arrive (signalFrame 1) 0] : List (Label ℤ)) ++ collect ++
    ([.append, .make "u1" "d1", .park, .write "t1", .clear, .unlock] : List (Label ℤ))

/-- **Both ways a row is lost**: nothing runs any more, and the accepted row is nowhere. -/
theorem rows_lost :
    (∃ w, Run (step minuteCfg) anyStep .init failedCollect w ∧ w.flush = none ∧ w.ingest = none ∧
      w.accepted.length = 1 ∧ w.buffered ++ (w.retryRows ++ tableRows w.db) = []) ∧
    ∃ w, Run (step minuteCfg) anyStep .init staleReference w ∧ w.flush = none ∧ w.ingest = none ∧
      w.accepted.length = 1 ∧ w.buffered ++ (w.retryRows ++ tableRows w.db) = [] := by
  constructor
  · exact exists_run (by decide)
  · exact exists_run (by decide)

end Writer
