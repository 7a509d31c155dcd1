import MarketFeed.Lib.Run
import MarketFeed.Lib.Upsert
import MarketFeed.Retention.Receipts
/-!
# The cache of `verify_file` (archive.py:64-79, :155-175, :368-426)

The outcome depends on the bytes of the file, on whether it can be read and on three fields of the manifest; the
cache knows the path, the size and the `mtime`. While none of these differ from what the entry of the call was made
from, every call is answered as an uncached one (`cache_transparent`); where the bytes are the same and the entry says
that they verify, that is also needed. Another manifest for the same file, or bytes put in place with the size and the
`mtime` of the old ones, are not noticed.

| here | there |
| --- | --- |
| `Env` | `hashlib.sha256`, `gzip` with UTF-8, `str`, `int`; `settled` is `time.time() - st.st_mtime >= CACHE_SETTLE_S`, over floats |
| `Env.lastLine` | the last index of `enumerate(fh)`, 0 for an empty text; `caught` for the exceptions of the `except` clause |
| `File.readable` | whether `open` succeeds; `stat` succeeds on every file |
| `Entry.file`, `Entry.man` | not in the source: what the entry was made from |
| the labels | a call of `verify_file` with the manifest it is given, or a path whose file changes, appears or goes |
-/

namespace Retention.VerifyCache

open Keyed Lts

abbrev Bytes := List UInt8

inductive Gzip
  | lastLine (i : Nat)
  /-- `OSError`, `EOFError`, `gzip.BadGzipFile`. -/
  | caught
  /-- `zlib.error`, `UnicodeDecodeError`. -/
  | raised
  deriving DecidableEq

structure Env where
  sha256 : Bytes → String
  lastLine : Bytes → Gzip
  str : Value → String
  /-- `none` where `int(value)` raises. -/
  int : Value → Option Int
  settled : Int → Int → Bool

structure File where
  bytes : Bytes
  mtimeNs : Int
  readable : Bool
  deriving DecidableEq

/-- The dict of a manifest, or `none` for a key it has not. -/
abbrev Manifest := String → Option Value

inductive Verdict
  | answer (ok : Bool)
  | raised
  deriving DecidableEq

variable (x : Env)

/-- `Manifest.sha256`. -/
def Env.manSha (man : Manifest) : String := x.str ((man "sha256").getD (.str ""))

/-- `Manifest.rows`. -/
def Env.manRows (man : Manifest) : Option Int :=
  match (man "rows").getD (.int 0) with
  | .null | .list _ | .dict _ => some 0
  | v => x.int v

/-- `_verify_file_uncached`. -/
def Env.verifyUncached (file : Option File) (man : Manifest) : Verdict :=
  match file with
  | none => .answer false
  | some f =>
    if (man "bytes").any (·.eqInt f.bytes.length) = false then .answer false
    else if f.readable = false then .answer false
    else if x.sha256 f.bytes ≠ x.manSha man then .answer false
    else match x.lastLine f.bytes with
      | .caught => .answer false
      | .raised => .raised
      | .lastLine i =>
        match x.manRows man with
        | none => .raised
        | some rows => .answer (decide ((i : Int) = rows))

/-- `(path, st.st_size, st.st_mtime_ns)`. -/
abbrev Key := String × Nat × Int

structure Entry where
  key : Key
  ok : Bool
  file : File
  man : Manifest

structure State where
  files : String → Option File
  cache : List Entry

def VERIFY_CACHE_MAX : Nat := 4096

def File.key (path : String) (f : File) : Key := (path, f.bytes.length, f.mtimeNs)

/-- `_VERIFY_CACHE[key] = ok`. -/
def State.remember (s : State) (e : Entry) : State :=
  { s with cache := upsert Entry.key (fun _ e => e) (if VERIFY_CACHE_MAX ≤ s.cache.length then [] else s.cache) e }

/-- `verify_file`. -/
def Env.verifyFile (s : State) (path : String) (man : Manifest) (useCache : Bool) (now : Int) : Verdict × State :=
  if useCache then
    match s.files path with
    | none => (.answer false, s)
    | some f =>
      if x.settled now f.mtimeNs then
        match lookup Entry.key (f.key path) s.cache with
        | some hit => (.answer hit.ok, s)
        | none =>
          match x.verifyUncached (some f) man with
          | .raised => (.raised, s)
          | .answer ok => (.answer ok, s.remember ⟨f.key path, ok, f, man⟩)
      else (x.verifyUncached (some f) man, s)
  else (x.verifyUncached (s.files path) man, s)

/-! ## Calls and changes -/

inductive Label
  | verify (path : String) (man : Manifest) (useCache : Bool) (now : Int)
  | change (path : String) (file : Option File)

def Env.step (s : State) : Label → Option State
  | .verify path man useCache now => some (x.verifyFile s path man useCache now).2
  | .change path file => some { s with files := fun p => if p = path then file else s.files p }

/-- Before the first call of the process. -/
def State.start (files : String → Option File) : State := ⟨files, []⟩

/-- The answer is that of an uncached verification of the same file against the same manifest at that moment. -/
def Env.Transparent (s : State) : Label → Prop
  | .verify path man useCache now => (x.verifyFile s path man useCache now).1 = x.verifyUncached (s.files path) man
  | .change _ _ => True

/-- The manifests tell a verification of `size` bytes the same. -/
def Env.Agree (size : Nat) (made man : Manifest) : Prop :=
  (made "bytes").any (·.eqInt size) = (man "bytes").any (·.eqInt size) ∧ x.manSha made = x.manSha man ∧
    x.manRows made = x.manRows man

/-- If there is an entry for the path, the size and the `mtime`, it was made from the same bytes, as readable as they
are now, and a manifest that agrees with the one of the call. -/
def Env.Unchanged (s : State) : Label → Prop
  | .verify path man useCache now => useCache = true → ∀ f, s.files path = some f → x.settled now f.mtimeNs = true →
      ∀ e, lookup Entry.key (path, f.bytes.length, f.mtimeNs) s.cache = some e →
        e.file.bytes = f.bytes ∧ e.file.readable = f.readable ∧ x.Agree f.bytes.length e.man man
  | .change _ _ => True

/-- Every entry has the outcome of what it was made from. -/
def Env.Honest (s : State) : Prop := ∀ e ∈ s.cache, x.verifyUncached (some e.file) e.man = .answer e.ok

variable {x}

theorem honest_start (files : String → Option File) : x.Honest (.start files) := by
  intro e he
  cases he

theorem honest_remember {s : State} {e : Entry} (h : x.Honest s)
    (he : x.verifyUncached (some e.file) e.man = .answer e.ok) :
    x.Honest (s.remember e) := by
  intro e' hmem
  rcases mem_upsert hmem with hmem | rfl | ⟨_, _, rfl⟩
  · split at hmem
    · cases hmem
    · exact h e' hmem
  · exact he
  · exact he

theorem honest_step {s s' : State} {l : Label} (h : x.Honest s) (hst : x.step s l = some s') : x.Honest s' := by
  cases l with
  | change path file =>
    cases hst
    exact h
  | verify path man useCache now =>
    cases hst
    unfold Env.verifyFile
    split
    · split
      · exact h
      · split
        · split
          · exact h
          · split
            · exact h
            · rename_i ok hok
              exact honest_remember h hok
        · exact h
    · exact h

/-- What a verification looks at. -/
theorem verifyUncached_congr {f g : File} {man man' : Manifest} (hbytes : f.bytes = g.bytes)
    (hread : f.readable = g.readable)
    (h : x.Agree g.bytes.length man man') : x.verifyUncached (some f) man = x.verifyUncached (some g) man' := by
  obtain ⟨hsize, hsha, hrows⟩ := h
  simp only [Env.verifyUncached, hbytes, hread, hsize, hsha, hrows]

theorem verifyUncached_true_iff {f : File} {man : Manifest} :
    x.verifyUncached (some f) man = .answer true ↔
      (man "bytes").any (·.eqInt f.bytes.length) = true ∧ f.readable = true ∧ x.sha256 f.bytes = x.manSha man ∧
        ∃ i, x.lastLine f.bytes = .lastLine i ∧ x.manRows man = some (i : Int) := by
  unfold Env.verifyUncached
  dsimp only
  split
  · simp_all
  · split
    · simp_all
    · split
      · simp_all
      · cases x.lastLine f.bytes with
        | caught => simp
        | raised => simp
        | lastLine i =>
          cases x.manRows man with
          | none => simp
          | some rows =>
            have hcomm : (i : Int) = rows ↔ rows = i := eq_comm
            simp_all

/-- Two verifications of the same bytes that both succeed are of the same file and manifest, as far as they look. -/
theorem agree_of_true {f g : File} {man man' : Manifest} (hbytes : f.bytes = g.bytes)
    (h : x.verifyUncached (some f) man = .answer true)
    (h' : x.verifyUncached (some g) man' = .answer true) : f.readable = g.readable ∧
      x.Agree g.bytes.length man man' := by
  obtain ⟨hsize, hread, hsha, i, hline, hrows⟩ := verifyUncached_true_iff.1 h
  obtain ⟨hsize', hread', hsha', i', hline', hrows'⟩ := verifyUncached_true_iff.1 h'
  rw [hbytes] at hsize hsha hline
  obtain rfl : i = i' := by simpa [hline] using hline'
  exact ⟨hread.trans hread'.symm, hsize.trans hsize'.symm, hsha.symm.trans hsha', hrows.trans hrows'.symm⟩

theorem verifyFile_hit {s : State} {path : String} {man : Manifest} {now : Int} {f : File} {e : Entry}
    (hf : s.files path = some f)
    (hs : x.settled now f.mtimeNs = true) (he : lookup Entry.key (path, f.bytes.length, f.mtimeNs) s.cache = some e) :
    x.verifyFile s path man true now = (.answer e.ok, s) := by
  have he' : lookup Entry.key (f.key path) s.cache = some e := he
  simp [Env.verifyFile, hf, hs, he']

/-- One call. -/
theorem transparent_of_unchanged {s : State} (h : x.Honest s) {l : Label} (hl : x.Unchanged s l) :
    x.Transparent s l := by
  cases l with
  | change path file => trivial
  | verify path man useCache now =>
    rw [Env.Transparent]
    cases useCache with
    | false => rfl
    | true =>
      cases hf : s.files path with
      | none => simp [Env.verifyFile, Env.verifyUncached, hf]
      | some f =>
        cases hs : x.settled now f.mtimeNs with
        | false => simp [Env.verifyFile, hf, hs]
        | true =>
          cases he : lookup Entry.key (path, f.bytes.length, f.mtimeNs) s.cache with
          | none =>
            have he' : lookup Entry.key (f.key path) s.cache = none := he
            cases hv : x.verifyUncached (some f) man <;> simp [Env.verifyFile, hf, hs, he', hv]
          | some e =>
            obtain ⟨hbytes, hread, hagree⟩ := hl rfl f hf hs e he
            rw [verifyFile_hit hf hs he, ← verifyUncached_congr hbytes hread hagree]
            exact (h e (mem_of_lookup he)).symm

theorem unchanged_of_transparent {s : State} (h : x.Honest s) {path : String} {man : Manifest} {now : Int}
    {f : File} {e : Entry}
    (hf : s.files path = some f) (hs : x.settled now f.mtimeNs = true)
    (he : lookup Entry.key (path, f.bytes.length, f.mtimeNs) s.cache = some e)
    (hok : e.ok = true) (hbytes : e.file.bytes = f.bytes) (ht : x.Transparent s (.verify path man true now)) :
    x.Unchanged s (.verify path man true now) := by
  rintro - f' hf' - e' he'
  obtain rfl : f = f' := Option.some.inj (hf.symm.trans hf')
  obtain rfl : e = e' := Option.some.inj (he.symm.trans he')
  rw [Env.Transparent, verifyFile_hit hf hs he, hf, hok] at ht
  have hmade := h e (mem_of_lookup he)
  rw [hok] at hmade
  exact ⟨hbytes, agree_of_true hbytes hmade ht.symm⟩

/-- **All calls of a run are answered as uncached ones while none finds an entry that was made from something else.**
Where the entry says that the same bytes verify, only such a call is. -/
theorem cache_transparent (x : Env) (files : String → Option File) (labels : List Label) (t : State) :
    (Run x.step x.Unchanged (.start files) labels t → Run x.step x.Transparent (.start files) labels t) ∧
      (Run x.step anyStep (.start files) labels t → ∀ path man now f e, t.files path = some f →
      x.settled now f.mtimeNs = true →
        lookup Entry.key (path, f.bytes.length, f.mtimeNs) t.cache = some e → e.ok = true → e.file.bytes = f.bytes →
          (x.Transparent t (.verify path man true now) ↔ x.Unchanged t (.verify path man true now))) := by
  constructor
  · intro h
    have hboth : Run x.step (fun s l => x.Honest s ∧ x.Unchanged s l) (.start files) labels t :=
      (Run.congr (fun _ _ _ => honest_step) (fun _ _ hs => (and_iff_right hs).symm) (honest_start files)).1 h
    exact hboth.mono fun _ _ hl => transparent_of_unchanged hl.1 hl.2
  · intro h path man now f e hf hs he hok hbytes
    have ht : x.Honest t := h.invariant (honest_start files) fun _ _ _ hs _ hst => honest_step hs hst
    exact ⟨unchanged_of_transparent ht hf hs he hok hbytes, transparent_of_unchanged ht⟩

/-- The gzip of `ts\n1\n`. -/
def sampleGzip : Bytes := [31, 139, 8, 0, 0, 0, 0, 0, 2, 3, 43, 41, 230, 50, 228, 2, 0, 26, 213, 229, 152, 5, 0, 0, 0]

def sampleSha : String := "f00f02804d68bd7fd9a8eaef0506d3c7440ea0d877faec93eca90792587e6ff8"

def sampleEnv : Env where
  sha256 b := if b = sampleGzip then sampleSha else ""
  lastLine _ := .lastLine 1
  str v := v.asStr.getD ""
  int v := match v with
    | .int n => some n
    | _ => none
  settled now mtimeNs := decide (10000000000 ≤ now - mtimeNs)

def manifestOf (sha : String) (rows : Int) : Manifest := fun key =>
  if key = "bytes" then some (.int 25) else if key = "sha256" then some (.str sha) else if key = "rows" then
    some (.int rows) else none

def sampleFiles : String → Option File := fun p => if p = "trades-2026-01-01.csv.gz" then
    some ⟨sampleGzip, 0, true⟩ else none

def sampleCall (rows : Int) : Label := .verify "trades-2026-01-01.csv.gz" (manifestOf sampleSha rows) true 10000000000

def sampleEntry : Entry := ⟨("trades-2026-01-01.csv.gz", 25, 0), true, ⟨sampleGzip, 0, true⟩, manifestOf sampleSha 1⟩

/-- The same manifest again: the answer is the cached one, and the right one. -/
theorem cache_transparent_twice : ∃ t, Run sampleEnv.step sampleEnv.Transparent (.start sampleFiles)
    [sampleCall 1, sampleCall 1] t ∧
    t.cache.length = 1 := by
  have hfirst : sampleEnv.step (.start sampleFiles) (sampleCall 1) = some ⟨sampleFiles, [sampleEntry]⟩ := rfl
  have hsecond : sampleEnv.step ⟨sampleFiles, [sampleEntry]⟩ (sampleCall 1) = some ⟨sampleFiles, [sampleEntry]⟩ := rfl
  refine ⟨⟨sampleFiles, [sampleEntry]⟩, (cache_transparent sampleEnv sampleFiles _ _).1 ?_, rfl⟩
  refine .cons ?_ hfirst (.cons ?_ hsecond (.nil _))
  · rintro - f - - e he
    cases he
  · rintro - f hf - e he
    cases hf
    cases he
    exact ⟨rfl, rfl, rfl, rfl, rfl⟩

/-- A file verifies, and then against a manifest of two rows it still does. -/
theorem stale_after_manifest_change : ∃ s,
    sampleEnv.step (.start sampleFiles)
      (.verify "trades-2026-01-01.csv.gz" (manifestOf sampleSha 1) true 10000000000) = some s ∧
    (sampleEnv.verifyFile s "trades-2026-01-01.csv.gz" (manifestOf sampleSha 2) true 10000000000).1 = .answer true ∧
    sampleEnv.verifyUncached (s.files "trades-2026-01-01.csv.gz") (manifestOf sampleSha 2) = .answer false :=
  ⟨_, rfl, by decide, by decide⟩

end Retention.VerifyCache
