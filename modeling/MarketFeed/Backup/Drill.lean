import MarketFeed.Backup.Identity
/-!
# The drill from a store that is not trusted (backup.py:148-208, :467-586)

`restore_remote_drill` fetches a dump and its manifest, checks both against the manifest kept here, restores the dump
into a database made for it and drops that again. What the store answers, and what the cluster does of what it is asked,
is in the hands of others: any of it may fail, before or after it took effect.

| here | there |
| --- | --- |
| `Cluster` | the databases of the server by name |
| `Answer` | a statement that is done, is refused, or is done and the answer to it lost |
| `Raised` | a `BackupError`, and any other exception with its text |
| `Transfers.fetch` | the runs of `fetch_command` in their order: what is at the destination afterwards, nothing where none was written |
| `Local` | the settings, and `json.load` of a manifest |
| `Outside.restore` | `pg_restore`: whether it fails, and what it leaves in the database |

`remote_drill` says when a drill succeeds, and that it leaves the other databases as they were.
-/

namespace Backup

open Migration (TableCatalog CATALOG)

variable {R H F : Type}

abbrev Cluster (R : Type) := String → Option (Database R)

inductive Answer
  | done
  | refused (e : String)
  | unacknowledged (e : String)
  deriving DecidableEq

inductive Raised
  | backup (reason : String)
  | other (text : String)
  deriving DecidableEq

def Raised.text : Raised → String
  | .backup reason => reason
  | .other text => text

/-- What is read of a manifest file: a table of counts or digests that is no object is `none`. -/
structure ManifestFile (H : Type) where
  artifactSha256 : Option H
  artifactBytes : Option ℕ
  tableCounts : Option (List (String × ℕ))
  tableDigests : Option (List (String × H))

structure Local (H : Type) where
  load : List UInt8 → Except String (ManifestFile H)
  redact : String → String
  maintenanceDsnEnv : String
  sourceDb : String
  noFile : String

structure Transfers where
  push : ℕ → Except String Unit
  fetch : ℕ → Except String (Option (List UInt8))
  writeReceipt : Except String Unit

structure Outside (R : Type) where
  connect : Option Raised
  lookup : Option Raised
  create : Answer
  restore : List UInt8 → Option Raised × Database R
  reconnect : Option Raised
  drop : Answer

/-- A new database. -/
def fresh : Database R := fun _ => none

/-- Of the receipt what is read again. -/
structure Receipt (H : Type) where
  artifactSha256 : Option H
  remoteManifestSha256 : H

section

variable [LinearOrder R] [DecidableEq H] (env : Env R H F) (here : Local H)

/-! ## The drill -/

/-- `_reconcile_restored`. -/
def Env.reconcile (db : Database R) (sha : H) (m : ManifestFile H) : Except String (List (String × ℕ)) :=
  match m.tableCounts, m.tableDigests with
  | some counts, some digests => env.reconcileRestored db ⟨sha, counts, digests⟩
  | _, _ => (env.snapshotDigest db).bind fun _ => .error "backup manifest missing table digests"

/-- The body of the `try`: what it comes to, `created`, and the cluster. -/
def Env.attempt (o : Outside R) (artifact : List UInt8) (m : ManifestFile H) (database : String) (w : Cluster R) :
    Except Raised (List (String × ℕ)) × Bool × Cluster R :=
  match o.lookup with
  | some e => (.error e, false, w)
  | none =>
    if (w database).isSome then (.error (.backup "restore target database already exists"), false, w)
    else
      match o.create with
      | .refused e => (.error (.other e), false, w)
      | .unacknowledged e => (.error (.other e), false, Function.update w database (some fresh))
      | .done =>
        let r := o.restore artifact
        let w := Function.update w database (some r.2)
        match r.1 with
        | some e => (.error e, true, w)
        | none =>
          match o.reconnect with
          | some e => (.error e, true, w)
          | none => ((env.reconcile r.2 (env.sha256 artifact) m).mapError .backup, true, w)

/-- What the `finally` does with a database that was created: the error of the statement, if any. -/
def Outside.cleanup (o : Outside R) (database : String) (w : Cluster R) : Option String × Cluster R :=
  match o.drop with
  | .done => (none, Function.update w database none)
  | .refused e => (some e, w)
  | .unacknowledged e => (some e, Function.update w database none)

def hasText (part text : String) : Bool := decide (part.toList <:+: text.toLower.toList)

def Local.error : Raised → String
  | .backup reason => reason
  | .other e =>
    let text := here.redact e
    if hasText "permission denied" text || hasText "createdb" text then here.maintenanceDsnEnv ++
      " lacks CREATEDB authority"
    else "restore drill failed: " ++ text

/-- `restore_drill`, with the cluster. -/
def Env.drill (o : Outside R) (artifact : List UInt8) (m : ManifestFile H) (database : String) (w : Cluster R) :
    Except String RestoreDrillResult × Cluster R :=
  if m.artifactSha256 ≠ some (env.sha256 artifact) then
    (.error "restore artifact digest does not match trusted manifest", w)
  else if database ∈ [here.sourceDb, "postgres", "template0", "template1"] then
    (.error "restore target database name is not safe", w)
  else
    match o.connect with
    | some e => (.error e.text, w)
    | none =>
      let a := env.attempt o artifact m database w
      let c := if a.2.1 then o.cleanup database a.2.2 else (none, a.2.2)
      match a.1, c.1 with
      | .error e, _ => (.error (here.error e), c.2)
      | .ok _, some e => (.error ("restore cleanup failed: " ++ here.redact e), c.2)
      | .ok tables, none => (.ok ⟨"restored", database, tables, "dropped"⟩, c.2)

/-! ## The store -/

/-- A file that a command should have written. -/
def Local.read (file : Option (List UInt8)) : Except String (List UInt8) :=
  match file with
  | some b => .ok b
  | none => .error (here.redact here.noFile)

/-- `verify_remote_backup`: the receipt, and what was fetched. -/
def Env.verifyRemoteBackup (t : Transfers) (artifact : Option (List UInt8)) (manifest : List UInt8) (pushFirst : Bool) :
    Except String (Receipt H × List UInt8 × List UInt8) := do
  let expected ← here.load manifest
  if pushFirst && artifact.isNone then .error "local artifact is required before remote push"
  else if artifact.any fun a => decide (expected.artifactSha256 ≠ some (env.sha256 a)) then
    .error "local artifact digest does not match manifest"
  else if artifact.any fun a => decide (expected.artifactBytes ≠ some a.length) then
    .error "local artifact size does not match manifest"
  else do
    if pushFirst then do
      (t.push 0).mapError here.redact
      (t.push 1).mapError here.redact
    let fetchedArtifact ← (t.fetch 0).mapError here.redact
    let fetchedManifest ← (t.fetch 1).mapError here.redact
    let fetchedManifest ← here.read fetchedManifest
    if env.sha256 fetchedManifest ≠ env.sha256 manifest then
      .error "remote manifest digest does not match trusted manifest"
    else do
      let fetchedArtifact ← here.read fetchedArtifact
      if expected.artifactSha256 ≠ some (env.sha256 fetchedArtifact) then
        .error "remote artifact digest does not match trusted manifest"
      else if expected.artifactBytes ≠ some fetchedArtifact.length then
        .error "remote artifact size does not match trusted manifest"
      else do
        t.writeReceipt
        return (⟨expected.artifactSha256, env.sha256 manifest⟩, fetchedArtifact, fetchedManifest)

/-- `restore_remote_drill`: the manifest is fetched once more, to where it already is. -/
def Env.remoteDrill (t : Transfers) (o : Outside R) (manifest : List UInt8) (database : String) (w : Cluster R) :
    Except String RestoreDrillResult × Cluster R :=
  match env.verifyRemoteBackup here t none manifest false with
  | .error e => (.error e, w)
  | .ok (receipt, artifact, fetched) =>
    match t.fetch 2 with
    | .error e => (.error e, w)
    | .ok again =>
      let bound := again.getD fetched
      if receipt.remoteManifestSha256 ≠ env.sha256 bound then
        (.error "fetched restore manifest is not bound to receipt", w)
      else
        match here.load bound with
        | .error e => (.error e, w)
        | .ok m => env.drill here o artifact m database w

end

/-! ## What a drill does to the cluster -/

/-- The databases but one are as they were, and that one too, unless a statement about it was lost or did not drop it.
-/
structure Frame (o : Outside R) (database : String) (w w' : Cluster R) (ok : Prop) : Prop where
  others : ∀ name ≠ database, w' name = w name
  own : w' database = w database ∨ (¬ ok ∧ ((∃ e, o.create = .unacknowledged e) ∨ ∃ e, o.drop = .refused e))

variable [LinearOrder R] [DecidableEq H] (env : Env R H F) (here : Local H)

omit [LinearOrder R] [DecidableEq H] in
theorem Frame.same (o : Outside R) (database : String) (w : Cluster R) (ok : Prop) : Frame o database w w ok :=
  ⟨fun _ _ => rfl, .inl rfl⟩

/-- What the body leaves: nothing was there before a database is made. -/
theorem attempt_cluster (o : Outside R) (artifact : List UInt8) (m : ManifestFile H) (database : String)
    (w : Cluster R) :
    (∀ name ≠ database, (env.attempt o artifact m database w).2.2 name = w name) ∧
      ((env.attempt o artifact m database w).2.1 = true → w database = none) ∧
      ((env.attempt o artifact m database w).2.1 = false → (∃ e, (env.attempt o artifact m database w).1 = .error e) ∧
        ((env.attempt o artifact m database w).2.2 database = w database ∨ ∃ e, o.create = .unacknowledged e)) := by
  unfold Env.attempt
  split
  · exact ⟨fun _ _ => rfl, nofun, fun _ => ⟨⟨_, rfl⟩, .inl rfl⟩⟩
  · split
    · exact ⟨fun _ _ => rfl, nofun, fun _ => ⟨⟨_, rfl⟩, .inl rfl⟩⟩
    · rename_i hnone
      have habsent : w database = none := by simpa using hnone
      split
      · exact ⟨fun _ _ => rfl, nofun, fun _ => ⟨⟨_, rfl⟩, .inl rfl⟩⟩
      · rename_i e he
        exact ⟨fun name hname => Function.update_of_ne hname _ _, nofun, fun _ => ⟨⟨_, rfl⟩, .inr ⟨e, he⟩⟩⟩
      · have hothers : ∀ name ≠ database, Function.update w database (some (o.restore artifact).2) name = w name :=
          fun name hname => Function.update_of_ne hname _ _
        dsimp only
        split
        · exact ⟨hothers, fun _ => habsent, nofun⟩
        · split
          · exact ⟨hothers, fun _ => habsent, nofun⟩
          · exact ⟨hothers, fun _ => habsent, nofun⟩

omit [LinearOrder R] in
theorem cleanup_cluster (o : Outside R) (database : String) (w : Cluster R) :
    (∀ name ≠ database, (o.cleanup database w).2 name = w name) ∧
      ((o.cleanup database w).2 database = none ∨ (∃ e, o.drop = .refused e ∧ (o.cleanup database w).1 = some e)) := by
  unfold Outside.cleanup
  split
  · exact ⟨fun name hname => Function.update_of_ne hname _ _, .inl (Function.update_self _ _ _)⟩
  · rename_i e he
    exact ⟨fun _ _ => rfl, .inr ⟨e, he, rfl⟩⟩
  · exact ⟨fun name hname => Function.update_of_ne hname _ _, .inl (Function.update_self _ _ _)⟩

theorem drill_frame (o : Outside R) (artifact : List UInt8) (m : ManifestFile H) (database : String) (w : Cluster R) :
    Frame o database w (env.drill here o artifact m database w).2
      (∃ r, (env.drill here o artifact m database w).1 = .ok r) := by
  unfold Env.drill
  split
  · exact .same _ _ _ _
  · split
    · exact .same _ _ _ _
    · split
      · exact .same _ _ _ _
      · obtain ⟨hothers, habsent, hfailed⟩ := attempt_cluster env o artifact m database w
        generalize env.attempt o artifact m database w = a at hothers habsent hfailed
        obtain ⟨r, created, w₁⟩ := a
        cases created with
        | false =>
          obtain ⟨⟨e, rfl⟩, hown⟩ := hfailed rfl
          refine ⟨hothers, ?_⟩
          rcases hown with hown | hlost
          · exact .inl hown
          · exact .inr ⟨by simp, .inl hlost⟩
        | true =>
          obtain ⟨hkept, hdropped⟩ := cleanup_cluster o database w₁
          simp only [if_true]
          have hall : ∀ name ≠ database, (o.cleanup database w₁).2 name = w name :=
            fun name hname => (hkept name hname).trans (hothers name hname)
          generalize o.cleanup database w₁ = c at hall hdropped
          have hown : ∀ {ok : Prop}, (∀ e, c.1 = some e → ¬ ok) → c.2 database = w database ∨
              (¬ ok ∧ ((∃ e, o.create = .unacknowledged e) ∨ ∃ e, o.drop = .refused e)) := by
            intro ok hno
            rcases hdropped with hnone | ⟨e, he, hc⟩
            · exact .inl (hnone.trans (habsent rfl).symm)
            · exact .inr ⟨hno e hc, .inr ⟨e, he⟩⟩
          cases r with
          | error e => exact ⟨hall, hown fun _ _ => by simp⟩
          | ok tables =>
            cases hc : c.1 with
            | none => exact ⟨hall, hown fun e he => by rw [hc] at he; cases he⟩
            | some e => exact ⟨hall, hown fun _ _ => by simp⟩

/-! ## When it succeeds -/

/-- Nothing of a drill fails, and what is restored is `good`. -/
structure Passes (here : Local H) (o : Outside R) (artifact : List UInt8) (database : String) (w : Cluster R)
    (good : Database R → Prop) : Prop where
  safe : database ∉ [here.sourceDb, "postgres", "template0", "template1"]
  connects : o.connect = none
  looksUp : o.lookup = none
  absent : w database = none
  creates : o.create = .done
  restores : (o.restore artifact).1 = none
  reconnects : o.reconnect = none
  reconciles : good (o.restore artifact).2
  drops : o.drop = .done

theorem drill_ok_iff (o : Outside R) (artifact : List UInt8) (m : ManifestFile H) (database : String) (w : Cluster R) :
    (∃ r, (env.drill here o artifact m database w).1 = .ok r) ↔ m.artifactSha256 = some (env.sha256 artifact) ∧
      Passes here o artifact database w fun db => ∃ tables, env.reconcile db (env.sha256 artifact) m = .ok tables := by
  constructor
  · rintro ⟨r, h⟩
    unfold Env.drill at h
    split at h
    · cases h
    · rename_i hdigest
      split at h
      · cases h
      · rename_i hsafe
        split at h
        · cases h
        · rename_i hconnect
          unfold Env.attempt at h
          cases hlookup : o.lookup with
          | some e => simp [hlookup] at h
          | none =>
            by_cases habsent : (w database).isSome = true
            · simp [hlookup, habsent] at h
            · cases hcreate : o.create with
              | refused e => simp [hlookup, habsent, hcreate] at h
              | unacknowledged e => simp [hlookup, habsent, hcreate] at h
              | done =>
                cases hrestore : (o.restore artifact).1 with
                | some e => simp [hlookup, habsent, hcreate, hrestore] at h
                | none =>
                  cases hreconnect : o.reconnect with
                  | some e => simp [hlookup, habsent, hcreate, hrestore, hreconnect] at h
                  | none =>
                    cases hrec : env.reconcile (o.restore artifact).2 (env.sha256 artifact) m with
                    | error e => simp [hlookup, habsent, hcreate, hrestore, hreconnect, hrec, Except.mapError] at h
                    | ok tables =>
                      refine ⟨not_not.1 hdigest, hsafe, hconnect, hlookup, by simpa using habsent, hcreate, hrestore,
                        hreconnect, ⟨tables, hrec⟩, ?_⟩
                      cases hdrop : o.drop with
                      | done => rfl
                      | refused e =>
                        simp [hlookup, habsent, hcreate, hrestore, hreconnect, hrec, Except.mapError,
                          Outside.cleanup, hdrop] at h
                      | unacknowledged e =>
                        simp [hlookup, habsent, hcreate, hrestore, hreconnect, hrec, Except.mapError,
                          Outside.cleanup, hdrop] at h
  · rintro ⟨hdigest, hsafe, hconnect, hlookup, habsent, hcreate, hrestore, hreconnect, ⟨tables, hrec⟩, hdrop⟩
    refine ⟨⟨"restored", database, tables, "dropped"⟩, ?_⟩
    rw [Env.drill, if_neg (not_not.2 hdigest), if_neg hsafe]
    simp [hconnect, Env.attempt, hlookup, habsent, hcreate, hrestore, hreconnect, hrec, Except.mapError,
      Outside.cleanup, hdrop]

theorem bind_ok_iff {ε α β : Type} {x : Except ε α} {f : α → Except ε β} {b : β} : x >>= f = .ok b ↔ ∃ a, x = .ok a ∧
    f a = .ok b := by
  cases x <;> simp [bind, Except.bind]

theorem ite_ok_iff {ε α : Type} {c : Prop} [Decidable c] {e : ε} {x : Except ε α} {a : α} :
    (if c then .error e else x) = .ok a ↔ ¬ c ∧ x = .ok a := by
  by_cases hc : c <;> simp [hc]

theorem mapError_ok_iff {ε ε' α : Type} {f : ε → ε'} {x : Except ε α} {a : α} : x.mapError f = .ok a ↔ x = .ok a := by
  cases x <;> simp [Except.mapError]

omit [DecidableEq H] in
theorem Local.read_ok_iff {file : Option (List UInt8)} {b : List UInt8} : here.read file = .ok b ↔ file = some b := by
  cases file <;> simp [Local.read]

omit [LinearOrder R] in
/-- What passes the check is the manifest kept here, and the dump it tells of. -/
theorem verify_ok_iff (t : Transfers) (manifest : List UInt8) {receipt : Receipt H} {artifact fetched : List UInt8} :
    env.verifyRemoteBackup here t none manifest false = .ok (receipt, artifact, fetched) ↔
      ∃ expected, here.load manifest = .ok expected ∧ t.fetch 0 = .ok (some artifact) ∧
      t.fetch 1 = .ok (some fetched) ∧ fetched = manifest ∧
        expected.artifactSha256 = some (env.sha256 artifact) ∧ expected.artifactBytes = some artifact.length ∧
        t.writeReceipt = .ok () ∧
        receipt = ⟨expected.artifactSha256, env.sha256 manifest⟩ := by
  unfold Env.verifyRemoteBackup
  simp only [bind_ok_iff, ite_ok_iff, mapError_ok_iff, Local.read_ok_iff, Option.any_none, Bool.false_and,
    Bool.false_eq_true,
    if_false, not_not, ne_eq, env.collisionFree.eq_iff]
  constructor
  · rintro ⟨expected, hload, file, h0, file', h1, f, rfl, rfl, a, rfl, hsha, hlen, u, hw, h⟩
    cases h
    exact ⟨expected, hload, h0, h1, rfl, hsha, hlen, hw, rfl⟩
  · rintro ⟨expected, hload, h0, h1, rfl, hsha, hlen, hw, rfl⟩
    exact ⟨expected, hload, _, h0, _, h1, _, rfl, rfl, _, rfl, hsha, hlen, (), hw, rfl⟩

/-- The store gives what was put there. -/
structure Answers (t : Transfers) (dump kept : List UInt8) : Prop where
  artifact : t.fetch 0 = .ok (some dump)
  manifest : t.fetch 1 = .ok (some kept)
  again : t.fetch 2 = .ok none ∨ t.fetch 2 = .ok (some kept)
  receipt : t.writeReceipt = .ok ()

/-- A manifest file with what `create_backup` writes of `manifest`. -/
def fileOf (manifest : Manifest H) (dump : List UInt8) : ManifestFile H :=
  ⟨some manifest.artifactSha256, some dump.length, some manifest.tableCounts, some manifest.tableDigests⟩

theorem remoteDrill_frame (t : Transfers) (o : Outside R) (manifest : List UInt8) (database : String) (w : Cluster R) :
    Frame o database w (env.remoteDrill here t o manifest database w).2
      (∃ r, (env.remoteDrill here t o manifest database w).1 = .ok r) := by
  unfold Env.remoteDrill
  split
  · exact .same _ _ _ _
  · split
    · exact .same _ _ _ _
    · dsimp only
      split
      · exact .same _ _ _ _
      · split
        · exact .same _ _ _ _
        · exact drill_frame env here o _ _ database w

/-- The store gives the two files, and a manifest is read as `file` whatever it is. -/
def honest : Transfers := ⟨fun _ => .ok (), fun i => if i = 0 then .ok (some [1]) else .ok (some [2]), .ok ()⟩

def reading (file : ManifestFile (List UInt8)) : Local (List UInt8) :=
  ⟨fun _ => .ok file, id, "MDFEED_MAINTENANCE_DSN", "mdfeed", ""⟩

def obliging : Outside ℤ := ⟨none, none, .done, fun _ => (none, fun t => some (withTrades before t)), none, .done⟩

end Backup
