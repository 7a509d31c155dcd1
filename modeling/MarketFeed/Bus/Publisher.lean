import MarketFeed.Lib.Run
import Mathlib.Data.List.Sort
import Mathlib.Algebra.Order.Ring.Nat
import Mathlib.Tactic.Common
/-!
# The bus publisher and its accounts (bus.py:59-195)

`_handle` puts a subscriber's queue into `_clients` before it waits, up to two seconds, for the line with the
subscriber's name, and its entry into `_stats` only after that. `publish` awaits nothing: for every queue of
`_clients` it drops the oldest frame of a full one, counts the drop in `_stats` where there is an entry, and
puts the new frame. `subscriber_stats` reports zeros for a queue that has no entry.

| here | there |
| --- | --- |
| `UDSPublisher.subscribers` | every connection there has been, by its `cid`; `_next_id` is the length |
| `Subscriber.attached` | whether `_clients` has the `cid` |
| `Subscriber.stats` | `st`, the entry of `_stats`; the wall-clock fields (`connected_at`, `uptime_s`) are left out |
| `Handler` | the await of `_handle`: the name line, `q.get()` (`serving none`), `drain()` with a frame in hand |
| `Move.leave` | an exception in the sending loop, `CancelledError` too; `Move.cancelled` one before it, which no `except` meets |
| `UDSPublisher.onDrop` | the arguments of the calls of `_on_drop`, which returns |
| `Subscriber.past`, `since`, `log` | not in the source: what became of the frames that left the queue, how many were published before the connection, and which |

`accounted_iff` says when the reported counters account for every frame.
-/

namespace Bus.Publisher

variable {φ : Type}

structure Stats where
  name : String
  dropped : ℕ
  sent : ℕ
  deriving DecidableEq

/-- What a frame left the queue for. -/
inductive Fate | written | lost
  deriving DecidableEq

inductive Handler (φ : Type)
  | naming
  | serving (hand : Option φ)
  | ended
  deriving DecidableEq

structure Subscriber (φ : Type) where
  attached : Bool
  stats : Option Stats
  handler : Handler φ
  queue : List φ
  since : ℕ
  past : List (Fate × φ)
  deriving DecidableEq

/-- `asyncio.Queue.full`: a queue whose `maxsize` is not positive never is. -/
def full (maxsize : ℤ) (queue : List φ) : Bool := decide (0 < maxsize) && decide (maxsize ≤ queue.length)

/-- The name that `_read_name` makes of the line; `none` where there is none, or an exception. -/
def readName (name : Option String) : String := (name.map fun n => String.ofList (n.toList.take 32)).getD "anonymous"

inductive Move
  | named (name : Option String)
  | take
  | drained
  | leave
  | cancelled

/-- The frames with one fate, in the order in which they left the queue. -/
def fate (a : Fate) (past : List (Fate × φ)) : List φ := (past.filter fun p => p.1 = a).map Prod.snd

namespace Subscriber

def name (s : Subscriber φ) : String := (s.stats.map Stats.name).getD "anonymous"

def dropped (s : Subscriber φ) : ℕ := (s.stats.map Stats.dropped).getD 0

def sent (s : Subscriber φ) : ℕ := (s.stats.map Stats.sent).getD 0

/-- How many frames the sender has in hand. -/
def inHand (s : Subscriber φ) : ℕ :=
  match s.handler with
  | .serving (some _) => 1
  | _ => 0

/-- What `_handle` does between two awaits. -/
def move (s : Subscriber φ) : Move → Option (Subscriber φ)
  | .named name =>
    match s.handler with
    | .naming => some { s with stats := some ⟨readName name, 0, 0⟩, handler := .serving none }
    | _ => none
  | .take =>
    match s.handler, s.queue with
    | .serving none, f :: rest =>
      some { s with queue := rest, handler := .serving (some f), past := s.past ++ [(.written, f)] }
    | _, _ => none
  | .drained =>
    match s.handler with
    | .serving (some _) => some { s with stats := s.stats.map fun st => { st with sent := st.sent + 1 }, handler := .serving none }
    | _ => none
  | .leave =>
    match s.handler with
    | .serving _ => some { s with attached := false, stats := none, handler := .ended }
    | _ => none
  | .cancelled =>
    match s.handler with
    | .naming => some { s with handler := .ended }
    | _ => none

/-- `q.get_nowait()` of a full queue, and the count of it. -/
def dropOldest (s : Subscriber φ) : Subscriber φ :=
  { s with queue := s.queue.tail, past := s.past ++ s.queue.head?.toList.map (.lost, ·),
           stats := s.stats.map fun st => { st with dropped := st.dropped + 1 } }

/-- `q.put_nowait(frame_bytes)`, `QueueFull` suppressed. -/
def putNowait (maxsize : ℤ) (f : φ) (s : Subscriber φ) : Subscriber φ :=
  if full maxsize s.queue then s else { s with queue := s.queue ++ [f] }

/-- What `publish` does with one queue. -/
def offer (maxsize : ℤ) (f : φ) (s : Subscriber φ) : Subscriber φ :=
  if full maxsize s.queue then s.dropOldest.putNowait maxsize f else s.putNowait maxsize f

/-- Whether `publish` drops a frame of this queue. -/
def drops (maxsize : ℤ) (s : Subscriber φ) : Bool := s.attached && full maxsize s.queue

/-- The loop of `publish`, for one connection. -/
def hear (maxsize : ℤ) (f : φ) (s : Subscriber φ) : Subscriber φ := if s.attached then s.offer maxsize f else s

end Subscriber

structure UDSPublisher (φ : Type) where
  queueSize : ℤ
  hasOnDrop : Bool
  subscribers : List (Subscriber φ)
  dropped : ℕ
  published : ℕ
  onDrop : List String
  log : List φ
  deriving DecidableEq

structure Report where
  id : ℕ
  name : String
  backlog : ℕ
  queueSize : ℤ
  dropped : ℕ
  sent : ℕ
  deriving DecidableEq

inductive Act (φ : Type)
  | connect
  | move (cid : ℕ) (m : Move)
  | publish (f : φ)
  | close

namespace UDSPublisher

def new (queueSize : ℤ) (hasOnDrop : Bool) : UDSPublisher φ := ⟨queueSize, hasOnDrop, [], 0, 0, [], []⟩

def publish (w : UDSPublisher φ) (f : φ) : UDSPublisher φ :=
  let dropping := w.subscribers.filter (·.drops w.queueSize)
  { w with published := w.published + 1, log := w.log ++ [f], dropped := w.dropped + dropping.length,
           onDrop := if w.hasOnDrop then w.onDrop ++ dropping.map Subscriber.name else w.onDrop,
           subscribers := w.subscribers.map (·.hear w.queueSize f) }

def report (w : UDSPublisher φ) (cid : ℕ) (s : Subscriber φ) : Report :=
  ⟨cid, s.name, s.queue.length, w.queueSize, s.dropped, s.sent⟩

def subscriberStats (w : UDSPublisher φ) : List Report :=
  ((w.subscribers.zipIdx.filter fun s => s.1.attached).map fun s => w.report s.2 s.1).insertionSort fun a b =>
    b.dropped ≤ a.dropped

/-- One step of the publisher. `close` is what follows the cancelled handlers: the clearing of the tables. -/
def step (w : UDSPublisher φ) : Act φ → Option (UDSPublisher φ)
  | .connect => some { w with subscribers := w.subscribers ++ [⟨true, none, .naming, [], w.log.length, []⟩] }
  | .move cid m => w.subscribers[cid]?.bind fun s => (s.move m).map fun s' =>
    { w with subscribers := w.subscribers.set cid s' }
  | .publish f => some (w.publish f)
  | .close => some { w with subscribers := w.subscribers.map fun s => { s with attached := false } }

end UDSPublisher

/-! ## What the accounts promise -/

structure Accounted (w : UDSPublisher φ) : Prop where
  /-- A subscriber is sent frames published since it connected, in their order, none of them twice. -/
  order : ∀ s ∈ w.subscribers, (fate .written s.past).Sublist (w.log.drop s.since)
  /-- A queue is the latest frames published, the oldest of them at its head. -/
  queue : ∀ s ∈ w.subscribers, s.attached = true → s.queue <:+ w.log
  /-- A full queue loses its head, and no other frame, to the frame published next. -/
  oldest : ∀ s ∈ w.subscribers, s.drops w.queueSize = true → ∀ f, ∃ f₀ rest, s.queue = f₀ :: rest ∧
    (s.offer w.queueSize f).queue = rest ++ [f] ∧
    fate .lost (s.offer w.queueSize f).past = fate .lost s.past ++ [f₀]
  account : ∀ r ∈ w.subscriberStats, ∃ s, w.subscribers[r.id]? = some s ∧
    r.sent + r.dropped + (r.backlog + s.inHand) = (w.log.drop s.since).length

/-- What the step must not be: a `publish` that drops a frame of a queue without an entry in `_stats`. -/
def DropsCounted (w : UDSPublisher φ) : Act φ → Prop
  | .publish _ => ∀ s ∈ w.subscribers, s.drops w.queueSize = true → s.stats.isSome = true
  | _ => True

instance (w : UDSPublisher φ) (a : Act φ) : Decidable (DropsCounted w a) := by
  cases a <;> unfold DropsCounted <;> infer_instance

/-! ## One queue -/

@[simp] theorem fate_nil (a : Fate) : fate a ([] : List (Fate × φ)) = [] := rfl

@[simp] theorem fate_concat (a b : Fate) (past : List (Fate × φ)) (f : φ) :
    fate a (past ++ [(b, f)]) = fate a past ++ if b = a then [f] else [] := by
  by_cases h : b = a <;> simp [fate, h]

theorem fate_sublist (a : Fate) (past : List (Fate × φ)) : (fate a past).Sublist (past.map Prod.snd) :=
  List.filter_sublist.map Prod.snd

/-- Every frame that left the queue has one of the two fates. -/
theorem length_fates (past : List (Fate × φ)) :
    (fate .written past).length + (fate .lost past).length = past.length := by
  induction past with
  | nil => rfl
  | cons p past ih =>
    obtain ⟨a, f⟩ := p
    cases a <;> simp [fate] at ih ⊢ <;> omega

namespace Subscriber

variable {s s' : Subscriber φ} {maxsize : ℤ} {log : List φ}

/-- What is kept of a connection whatever happens: nothing of what was published since is missing or moved. -/
structure Kept (maxsize : ℤ) (log : List φ) (s : Subscriber φ) : Prop where
  cap : 0 < maxsize → (s.queue.length : ℤ) ≤ maxsize
  since : s.since ≤ log.length
  past : s.past.map Prod.snd ++ s.queue <+: log.drop s.since
  all : s.attached = true → s.past.map Prod.snd ++ s.queue = log.drop s.since
  unnamed : s.handler = .naming → s.stats = none ∧ fate .written s.past = []
  named : s.attached = true → ∀ hand, s.handler = .serving hand → s.stats.isSome = true
  sent : s.attached = true → s.sent + s.inHand = (fate .written s.past).length

/-- The drops reported of a queue are the frames it lost. -/
def Counted (s : Subscriber φ) : Prop := s.attached = true → s.dropped = (fate .lost s.past).length

theorem Kept.new : Kept maxsize log ⟨true, none, .naming, [], log.length, []⟩ where
  cap h := by simpa using h.le
  since := le_rfl
  past := by simp
  all _ := by simp
  unnamed _ := ⟨rfl, rfl⟩
  named _ hand h := by cases h
  sent _ := rfl

theorem Kept.detach (h : s.Kept maxsize log) : Kept maxsize log { s with attached := false } :=
  ⟨h.cap, h.since, h.past, nofun, h.unnamed, nofun, nofun⟩

theorem Kept.move (h : s.Kept maxsize log) {m : Move} (hm : s.move m = some s') : s'.Kept maxsize log := by
  cases m with
  | named name =>
    simp only [Subscriber.move] at hm
    split at hm <;> cases hm
    next hh =>
    exact ⟨h.cap, h.since, h.past, h.all, nofun, fun _ _ _ => rfl,
      fun _ => by simp [Subscriber.sent, inHand, (h.unnamed hh).2]⟩
  | take =>
    simp only [Subscriber.move] at hm
    split at hm <;> cases hm
    next f rest hh hq =>
    have hpast : (s.past ++ [(Fate.written, f)]).map Prod.snd ++ rest = s.past.map Prod.snd ++ s.queue := by simp [hq]
    refine ⟨fun hpos => ?_, h.since, hpast ▸ h.past, fun ha => hpast ▸ h.all ha, nofun, fun ha _ _ => h.named ha none hh, fun ha => ?_⟩
    · have hcap := h.cap hpos
      simp only [hq, List.length_cons] at hcap ⊢
      omega
    · simpa [inHand, hh, Subscriber.sent] using h.sent ha
  | drained =>
    simp only [Subscriber.move] at hm
    split at hm <;> cases hm
    next f hh =>
    refine ⟨h.cap, h.since, h.past, h.all, nofun, fun ha _ _ => ?_, fun ha => ?_⟩
    · rw [Option.isSome_map]
      exact h.named ha _ hh
    · obtain ⟨st, hst⟩ := Option.isSome_iff_exists.1 (h.named ha _ hh)
      simpa [Subscriber.sent, inHand, hst, hh] using h.sent ha
  | leave =>
    simp only [Subscriber.move] at hm
    split at hm <;> cases hm
    exact ⟨h.cap, h.since, h.past, nofun, nofun, nofun, nofun⟩
  | cancelled =>
    simp only [Subscriber.move] at hm
    split at hm <;> cases hm
    next hh =>
    refine ⟨h.cap, h.since, h.past, h.all, nofun, nofun, fun ha => ?_⟩
    simpa [inHand, hh, Subscriber.sent] using h.sent ha

/-- A move drops nothing. -/
theorem Kept.counted_move (h : s.Kept maxsize log) {m : Move} (hm : s.move m = some s') (hs : s.Counted) :
    s'.Counted := by
  cases m <;> simp only [Subscriber.move] at hm <;> split at hm <;> cases hm <;> intro ha
  · next hh =>
    simpa [Subscriber.dropped, (h.unnamed hh).1] using hs ha
  · simpa [Subscriber.dropped] using hs ha
  · next hh =>
    obtain ⟨st, hst⟩ := Option.isSome_iff_exists.1 (h.named ha _ hh)
    simpa [Subscriber.dropped, hst] using hs ha
  · cases ha
  · exact hs ha

/-- What `publish` makes of a queue. -/
theorem Kept.offer_spec (h : s.Kept maxsize log) (f : φ) :
    if full maxsize s.queue then ∃ f₀ rest, s.queue = f₀ :: rest ∧ s.offer maxsize f = { s with
      queue := rest ++ [f], past := s.past ++ [f₀].map (.lost, ·), stats := s.stats.map fun st =>
        { st with dropped := st.dropped + 1 } }
    else s.offer maxsize f = { s with queue := s.queue ++ [f] } := by
  split
  case isTrue hfull =>
    obtain ⟨hpos, hle⟩ : 0 < maxsize ∧ maxsize ≤ s.queue.length := by simpa [full] using hfull
    have hcap := h.cap hpos
    cases hq : s.queue with
    | nil =>
      simp [hq] at hle
      omega
    | cons f₀ rest =>
      have hroom : full maxsize rest = false := by
        simp only [hq, List.length_cons] at hcap
        simp [full]
        push_cast at hcap
        omega
      refine ⟨f₀, rest, rfl, ?_⟩
      simp [offer, dropOldest, putNowait, hq ▸ hfull, hq, hroom]
  case isFalse hfull => simp [offer, putNowait, hfull]

theorem Kept.offer (h : s.Kept maxsize log) (ha : s.attached = true) (f : φ) :
    (s.offer maxsize f).Kept maxsize (log ++ [f]) := by
  have hlog : (log ++ [f]).drop s.since = s.past.map Prod.snd ++ s.queue ++ [f] := by
    rw [List.drop_append_of_le_length h.since, h.all ha]
  have hsince : s.since ≤ (log ++ [f]).length := by
    have := h.since
    simp
    omega
  have hspec := h.offer_spec f
  split at hspec
  case isTrue hfull =>
    obtain ⟨f₀, rest, hq, hof⟩ := hspec
    have hpast : (s.past ++ [(Fate.lost, f₀)]).map Prod.snd ++ (rest ++ [f]) = (log ++ [f]).drop s.since := by
      simp [hlog, hq]
    rw [hof]
    refine ⟨fun hpos => ?_, hsince, hpast ▸ List.prefix_rfl, fun _ => hpast, fun hh => ?_, fun _ hand hh => ?_,
      fun _ => ?_⟩
    · have hcap := h.cap hpos
      simp only [hq, List.length_append, List.length_cons, List.length_nil] at hcap ⊢
      omega
    · simpa using h.unnamed hh
    · simpa using h.named ha hand hh
    · have hsent := h.sent ha
      cases hst : s.stats <;> simpa [Subscriber.sent, inHand, hst] using hsent
  case isFalse hfull =>
    have hpast : s.past.map Prod.snd ++ (s.queue ++ [f]) = (log ++ [f]).drop s.since := by rw [hlog, List.append_assoc]
    rw [hspec]
    refine ⟨fun hpos => ?_, hsince, hpast ▸ List.prefix_rfl, fun _ => hpast, h.unnamed, h.named, h.sent⟩
    have hroom : ¬ maxsize ≤ s.queue.length := by simpa [full, hpos] using hfull
    simp only [List.length_append, List.length_cons, List.length_nil]
    omega

/-- A drop is counted for its queue where there is an entry to count it in, and there only. -/
theorem Kept.counted_offer (h : s.Kept maxsize log) (ha : s.attached = true) (f : φ) (hs : s.Counted) :
    (s.offer maxsize f).Counted ↔ (full maxsize s.queue = true → s.stats.isSome = true) := by
  have hd := hs ha
  have hspec := h.offer_spec f
  split at hspec
  case isTrue hfull =>
    obtain ⟨f₀, rest, hq, hof⟩ := hspec
    rw [hof]
    cases hst : s.stats with
    | none => simp [Counted, Subscriber.dropped, ha, hfull]
    | some st => simpa [Counted, Subscriber.dropped, ha, hst] using hd
  case isFalse hfull =>
    rw [hspec]
    exact ⟨fun _ h => absurd h hfull, fun _ _ => hd⟩

/-- A connection that `publish` no longer reaches. -/
theorem Kept.unreached (h : s.Kept maxsize log) (ha : s.attached = false) (f : φ) : s.Kept maxsize (log ++ [f]) := by
  refine ⟨h.cap, ?_, ?_, fun h' => ?_, h.unnamed, h.named, h.sent⟩
  · have := h.since
    simp
    omega
  · rw [List.drop_append_of_le_length h.since]
    exact h.past.trans (List.prefix_append _ _)
  · exact absurd h' (by simp [ha])

theorem Kept.hear (h : s.Kept maxsize log) (f : φ) : (s.hear maxsize f).Kept maxsize (log ++ [f]) := by
  unfold Subscriber.hear
  split
  case isTrue ha => exact h.offer ha f
  case isFalse ha => exact h.unreached (by simpa using ha) f

theorem Kept.counted_hear (h : s.Kept maxsize log) (f : φ) (hs : s.Counted) :
    (s.hear maxsize f).Counted ↔ (s.drops maxsize = true → s.stats.isSome = true) := by
  cases ha : s.attached with
  | true => simpa [Subscriber.hear, drops, ha] using h.counted_offer ha f hs
  | false => simpa [Subscriber.hear, drops, ha] using hs

theorem Kept.lost_hear (h : s.Kept maxsize log) (f : φ) :
    (fate .lost (s.hear maxsize f).past).length = (fate .lost s.past).length + if s.drops maxsize then 1 else 0 := by
  cases ha : s.attached with
  | false => simp [Subscriber.hear, drops, ha]
  | true =>
    have hspec := h.offer_spec f
    split at hspec
    case isTrue hfull =>
      obtain ⟨f₀, rest, hq, hof⟩ := hspec
      simp [Subscriber.hear, drops, ha, hof, hfull]
    case isFalse hfull => simp [Subscriber.hear, drops, ha, hspec, hfull]

theorem lost_move {m : Move} (hm : s.move m = some s') : fate .lost s'.past = fate .lost s.past := by
  cases m <;> simp only [Subscriber.move] at hm <;> split at hm <;> cases hm <;> simp

/-- The account of one connection: what is reported and what is on its way is what was published since. -/
theorem Kept.account_iff (h : s.Kept maxsize log) (ha : s.attached = true) :
    s.sent + s.dropped + (s.queue.length + s.inHand) = (log.drop s.since).length ↔ s.Counted := by
  have hlen := length_fates s.past
  have hsent := h.sent ha
  rw [← h.all ha, List.length_append, List.length_map]
  constructor
  · intro he _
    omega
  · intro hs
    have hd := hs ha
    omega

end Subscriber

/-! ## All of them -/

namespace UDSPublisher

variable {w w' : UDSPublisher φ}

/-- How many frames the queues have lost together. -/
def lost (w : UDSPublisher φ) : ℕ := (w.subscribers.map fun s => (fate .lost s.past).length).sum

structure Inv (w : UDSPublisher φ) : Prop where
  kept : ∀ s ∈ w.subscribers, s.Kept w.queueSize w.log
  published : w.published = w.log.length
  dropped : w.dropped = w.lost

theorem inv_new (queueSize : ℤ) (hasOnDrop : Bool) : Inv (.new queueSize hasOnDrop : UDSPublisher φ) :=
  ⟨nofun, rfl, rfl⟩

theorem mem_subscriberStats {r : Report} :
    r ∈ w.subscriberStats ↔ ∃ s, w.subscribers[r.id]? = some s ∧ s.attached = true ∧ r = w.report r.id s := by
  unfold subscriberStats
  rw [(List.perm_insertionSort _ _).mem_iff]
  simp only [List.mem_map, List.mem_filter, Prod.exists, List.mk_mem_zipIdx_iff_getElem?]
  constructor
  · rintro ⟨s, cid, ⟨hs, ha⟩, rfl⟩
    exact ⟨s, hs, ha, rfl⟩
  · rintro ⟨s, hs, ha, hr⟩
    exact ⟨s, r.id, ⟨hs, ha⟩, hr.symm⟩

/-- The accounts are as promised where every drop is counted for its queue. -/
theorem Inv.accounted_iff_counted (h : Inv w) : Accounted w ↔ ∀ s ∈ w.subscribers, s.Counted := by
  constructor
  · intro hacc s hs ha
    obtain ⟨cid, hcid⟩ := List.mem_iff_getElem?.1 hs
    obtain ⟨s', hs', he⟩ := hacc.account (w.report cid s) (mem_subscriberStats.2 ⟨s, hcid, ha, rfl⟩)
    cases hcid.symm.trans hs'
    exact ((h.kept s hs).account_iff ha).1 he ha
  · intro hcounted
    refine ⟨fun s hs => ?_, fun s hs ha => ?_, fun s hs hd f => ?_, fun r hr => ?_⟩
    · exact (fate_sublist _ _).trans ((List.prefix_append _ _).sublist.trans (h.kept s hs).past.sublist)
    · exact (List.suffix_append _ _).trans ((h.kept s hs).all ha ▸ List.drop_suffix _ _)
    · obtain ⟨-, hfull⟩ : s.attached = true ∧ full w.queueSize s.queue = true := by simpa [Subscriber.drops] using hd
      have hspec := (h.kept s hs).offer_spec f
      rw [if_pos hfull] at hspec
      obtain ⟨f₀, rest, hq, hof⟩ := hspec
      exact ⟨f₀, rest, hq, by simp [hof], by simp [hof]⟩
    · obtain ⟨s, hs, ha, hr⟩ := mem_subscriberStats.1 hr
      have hmem := List.mem_of_getElem? hs
      refine ⟨s, hs, ?_⟩
      rw [hr]
      exact ((h.kept s hmem).account_iff ha).2 (hcounted s hmem)

theorem lost_heard {maxsize : ℤ} {log : List φ} (f : φ)
    {subs : List (Subscriber φ)} (h : ∀ s ∈ subs, s.Kept maxsize log) :
    ((subs.map (·.hear maxsize f)).map fun s => (fate .lost s.past).length).sum =
      (subs.map fun s => (fate .lost s.past).length).sum + (subs.filter (·.drops maxsize)).length := by
  induction subs with
  | nil => rfl
  | cons s subs ih =>
    have ih := ih fun t ht => h t (List.mem_cons_of_mem s ht)
    have hs := (h s List.mem_cons_self).lost_hear f
    simp only [List.map_cons, List.sum_cons, ih, hs, List.filter_cons]
    split <;> simp <;> omega

theorem Inv.step (h : Inv w) {a : Act φ} (hst : w.step a = some w') : Inv w' := by
  cases a with
  | connect =>
    cases hst
    refine ⟨fun s hs => ?_, h.published, ?_⟩
    · rcases List.mem_append.1 hs with hs | hs
      · exact h.kept s hs
      · cases List.mem_singleton.1 hs
        exact .new
    · simp [lost, h.dropped]
  | move cid m =>
    obtain ⟨s, hs, hst⟩ := Option.bind_eq_some_iff.1 hst
    obtain ⟨s', hm, rfl⟩ := Option.map_eq_some_iff.1 hst
    refine ⟨fun t ht => ?_, h.published, ?_⟩
    · rcases List.mem_or_eq_of_mem_set ht with ht | rfl
      · exact h.kept t ht
      · exact (h.kept s (List.mem_of_getElem? hs)).move hm
    · have hlost : (w.subscribers.set cid s').map (fun s => (fate .lost s.past).length) = w.subscribers.map fun s =>
          (fate .lost s.past).length := by
        obtain ⟨hlt, rfl⟩ := List.getElem?_eq_some_iff.1 hs
        rw [List.map_set, Subscriber.lost_move hm,
          ← List.getElem_map (fun s : Subscriber φ => (fate .lost s.past).length), List.set_getElem_self]
        simpa using hlt
      rw [lost, hlost]
      exact h.dropped
  | publish f =>
    cases hst
    refine ⟨fun t ht => ?_, ?_, ?_⟩
    · obtain ⟨s, hs, rfl⟩ := List.mem_map.1 ht
      exact (h.kept s hs).hear f
    · simp [publish, h.published]
    · simp only [publish, lost, lost_heard f h.kept, h.dropped]
  | close =>
    cases hst
    refine ⟨fun t ht => ?_, h.published, ?_⟩
    · obtain ⟨s, hs, rfl⟩ := List.mem_map.1 ht
      exact (h.kept s hs).detach
    · simp [lost, h.dropped, Function.comp_def]

/-- **Which steps keep the accounts.** -/
theorem Inv.counted_step (h : Inv w) (hw : ∀ s ∈ w.subscribers, s.Counted) {a : Act φ} (hst : w.step a = some w') :
    (∀ s ∈ w'.subscribers, s.Counted) ↔ DropsCounted w a := by
  cases a with
  | connect =>
    cases hst
    refine ⟨fun _ => trivial, fun _ s hs => ?_⟩
    rcases List.mem_append.1 hs with hs | hs
    · exact hw s hs
    · cases List.mem_singleton.1 hs
      exact fun _ => rfl
  | move cid m =>
    obtain ⟨s, hs, hst⟩ := Option.bind_eq_some_iff.1 hst
    obtain ⟨s', hm, rfl⟩ := Option.map_eq_some_iff.1 hst
    refine ⟨fun _ => trivial, fun _ t ht => ?_⟩
    have hmem := List.mem_of_getElem? hs
    rcases List.mem_or_eq_of_mem_set ht with ht | rfl
    · exact hw t ht
    · exact (h.kept s hmem).counted_move hm (hw s hmem)
  | publish f =>
    cases hst
    simp only [publish, DropsCounted, List.forall_mem_map]
    exact forall₂_congr fun s hs => (h.kept s hs).counted_hear f (hw s hs)
  | close =>
    cases hst
    refine ⟨fun _ => trivial, fun _ t ht => ?_⟩
    obtain ⟨s, -, rfl⟩ := List.mem_map.1 ht
    nofun

end UDSPublisher

theorem inv_of_run {queueSize : ℤ} {hasOnDrop : Bool} {as : List (Act φ)} {w : UDSPublisher φ}
    (h : Lts.Run UDSPublisher.step Lts.anyStep (.new queueSize hasOnDrop) as w) : w.Inv :=
  h.invariant (UDSPublisher.inv_new queueSize hasOnDrop) fun _ _ _ hs _ hst => hs.step hst

/-- The counter of all drops is exact in every run, whatever the accounts of the single queues are. -/
theorem dropped_eq_lost (queueSize : ℤ) (hasOnDrop : Bool) (as : List (Act φ)) (w : UDSPublisher φ)
    (h : Lts.Run UDSPublisher.step Lts.anyStep (.new queueSize hasOnDrop) as w) : w.published = w.log.length ∧
      w.dropped = w.lost :=
  ⟨(inv_of_run h).published, (inv_of_run h).dropped⟩

/-- **When the accounts are exact.** All along a run every subscriber is sent its frames in their order and every
frame published since it connected is reported, queued or in the sender's hand, just when no `publish` of the run
drops a frame of a queue that has no entry in `_stats` yet. -/
theorem accounted_iff (queueSize : ℤ) (hasOnDrop : Bool) (as : List (Act φ)) (w : UDSPublisher φ)
    (h : Lts.Run UDSPublisher.step Lts.anyStep (.new queueSize hasOnDrop) as w) :
    (∀ bs cs m, as = bs ++ cs → Lts.Run UDSPublisher.step Lts.anyStep (.new queueSize hasOnDrop) bs m → Accounted m) ↔
      Lts.Run UDSPublisher.step DropsCounted (.new queueSize hasOnDrop) as w := by
  rw [← h.invariant_iff (I := fun w => ∀ s ∈ w.subscribers, s.Counted) (fun _ _ _ hs hst => hs.step hst)
    (fun _ _ _ hs his hst => hs.counted_step his hst) (UDSPublisher.inv_new queueSize hasOnDrop) nofun]
  constructor
  · intro hall bs cs m hbs hm
    exact (inv_of_run hm).accounted_iff_counted.1 (hall bs cs m hbs hm)
  · intro hall bs cs m hbs hm
    exact (inv_of_run hm).accounted_iff_counted.2 (hall bs cs m hbs hm)

theorem accounted_slow : ∃ w : UDSPublisher ℕ, Lts.Run UDSPublisher.step Lts.anyStep (.new 1 true)
    [.connect, .move 0 (.named (some "writer")), .publish 7, .publish 8, .move 0 .take] w ∧
    ((∀ bs cs m, [Act.connect, .move 0 (.named (some "writer")), .publish 7, .publish 8, .move 0 .take] = bs ++ cs →
      Lts.Run UDSPublisher.step Lts.anyStep (.new 1 true) bs m → Accounted m) ↔
      Lts.Run UDSPublisher.step DropsCounted (.new 1 true)
        [.connect, .move 0 (.named (some "writer")), .publish 7, .publish 8, .move 0 .take] w) := by
  have hex : ∃ w : UDSPublisher ℕ, Lts.Run UDSPublisher.step Lts.anyStep (.new 1 true)
      [.connect, .move 0 (.named (some "writer")), .publish 7, .publish 8, .move 0 .take] w ∧
        w.dropped = 1 := Lts.exists_run (by decide +kernel)
  obtain ⟨w, hw, -⟩ := hex
  exact ⟨w, hw, accounted_iff 1 true _ w hw⟩

/-- A full queue loses a frame while its subscriber is being asked for its name: nothing is reported of it, then or
later. -/
theorem dropped_while_naming : ∃ w : UDSPublisher ℕ, Lts.Run UDSPublisher.step Lts.anyStep (.new 1 true)
    [.connect, .publish 7, .publish 8, .move 0 (.named (some "writer"))] w ∧
    w.subscriberStats = [⟨0, "writer", 1, 1, 0, 0⟩] ∧ w.published = 2 ∧ w.dropped = 1 ∧ w.onDrop = ["anonymous"] ∧
    ¬ Accounted w := by
  have hex : ∃ w : UDSPublisher ℕ, Lts.Run UDSPublisher.step Lts.anyStep (.new 1 true)
      [.connect, .publish 7, .publish 8, .move 0 (.named (some "writer"))] w ∧
      w = ⟨1, true, [⟨true, some ⟨"writer", 0, 0⟩, .serving none, [8], 0, [(.lost, 7)]⟩], 1, 2,
        ["anonymous"], [7, 8]⟩ :=
    Lts.exists_run (by decide +kernel)
  obtain ⟨w, hw, rfl⟩ := hex
  refine ⟨_, hw, by decide +kernel, rfl, rfl, rfl, fun hacc => ?_⟩
  obtain ⟨s, hs, he⟩ := hacc.account ⟨0, "writer", 1, 1, 0, 0⟩ (by decide +kernel)
  cases hs
  exact absurd he (by decide)

end Bus.Publisher
