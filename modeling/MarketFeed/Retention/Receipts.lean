import Mathlib.Data.Option.Basic
import MarketFeed.Retention.Prune
/-!
# Receipts of the remote archive (retention.py:196-267)

A file of the receipt directory counts as a receipt when `_strict_receipt` accepts it, whatever its name
is as long as it ends in `.json`. `strictReceipt_iff` says what an accepted document holds (`Verified`).

| here | there |
| --- | --- |
| `Value` | what `json.load` makes of a document; a float by the whole number it equals, if there is one |
| `Fields.get` | `data.get(key)`, `None` where there is no such key |
| `fromisoformat` | `date.fromisoformat`, as days since the epoch; which texts it takes depends on the version of Python |
| `File.data` | `None` where the file cannot be read or is no JSON |
-/

namespace Retention

inductive Value
  | null
  | bool (b : Bool)
  | int (n : Int)
  | float (whole : Option Int)
  | str (s : String)
  | list (xs : List Value)
  | dict (fields : List (String × Value))

abbrev Fields := List (String × Value)

def Fields.get (d : Fields) (key : String) : Value := ((d.find? (·.1 == key)).map (·.2)).getD .null

def Value.asDict : Value → Option Fields
  | .dict d => some d
  | _ => none

def Value.asStr : Value → Option String
  | .str s => some s
  | _ => none

/-- `v == n` for an `int` `n`: `True` is `1`. -/
def Value.eqInt : Value → Int → Bool
  | .bool b, n => (if b then 1 else 0) == n
  | .int m, n => m == n
  | .float whole, n => whole == some n
  | _, _ => false

def Value.eqStr (v : Value) (s : String) : Bool := v.asStr == some s

def isHexDigit (c : Char) : Bool := "0123456789abcdef".toList.contains c.toLower

/-- `_is_sha256` of a text. -/
def isSha256 (s : String) : Bool := s.toList.length == 64 && s.toList.all isHexDigit

/-- The value, where `_is_sha256` holds of it. -/
def Value.sha256 (v : Value) : Option String := v.asStr.filter isSha256

/-- `_positive_int`; a `bool` is an `int`. -/
def Value.positiveInt : Value → Option Nat
  | .bool b => some (if b then 1 else 0)
  | .int n => if 0 ≤ n then some n.toNat else none
  | _ => none

/-- The name in `PRUNE_TABLES`. -/
def Table.name : Table → String
  | .trades => "trades"
  | .bookTop => "book_top"

section

variable (fromisoformat : String → Option Int)

/-- `_strict_receipt`. -/
def strictReceipt (data : Value) (t : Table) : Option (Int × DayProof) := do
  let d ← data.asDict
  guard ((d.get "schema_version").eqInt 1 ∧ (d.get "status").eqStr "verified")
  let dayValue ← (d.get "day").asStr
  guard ((d.get "table").eqStr t.name)
  let day ← fromisoformat dayValue
  let localSha ← (d.get "local_sha256").sha256
  let remoteSha ← (d.get "remote_fetch_sha256").sha256
  let manifestSha ← (d.get "manifest_sha256").sha256
  let remoteManifestSha ← (d.get "remote_manifest_sha256").sha256
  let sourceSha ← (d.get "source_content_sha256").sha256
  guard (localSha = remoteSha ∧ manifestSha = remoteManifestSha)
  let localBytes ← (d.get "local_bytes").positiveInt
  let remoteBytes ← (d.get "remote_fetch_bytes").positiveInt
  let localRows ← (d.get "local_rows").positiveInt
  let remoteRows ← (d.get "remote_fetch_rows").positiveInt
  let sourceRows ← (d.get "source_rows").positiveInt
  guard (localBytes = remoteBytes ∧ localRows = remoteRows ∧ localRows = sourceRows)
  guard ((d.get "source_table").eqStr t.name ∧ (d.get "source_day").eqStr dayValue)
  guard ((d.get "source_from_us").eqInt (dayStartUs day) ∧ (d.get "source_to_us").eqInt (dayStartUs day + dayUs))
  let objectId ← (d.get "object_id").asStr
  guard (objectId ≠ "")
  return (day, ⟨sourceRows, sourceSha⟩)

end

/-- A file of the directory, by its name and its document. -/
structure File where
  name : String
  data : Option Value

/-- `name.endswith(".json")`. -/
def File.isJson (f : File) : Bool := ".json".toList.isSuffixOf f.name.toList

/-- `_remote_verified_receipts`, in the order of `os.listdir`. -/
def remoteVerifiedReceipts (fromisoformat : String → Option Int) (files : List File) : Receipts := fun t =>
  (files.filter File.isJson).filterMap fun f => f.data.bind fun data => strictReceipt fromisoformat data t

/-! ## What an accepted receipt holds -/

/-- The archive's artifact and manifest were fetched back as they were pushed, and the source was this day of
this table with these rows. -/
structure Verified (fromisoformat : String → Option Int) (d : Fields) (t : Table) (day : Int) (proof : DayProof) :
    Prop where
  schema : (d.get "schema_version").eqInt 1 = true
  status : d.get "status" = .str "verified"
  table : d.get "table" = .str t.name ∧ d.get "source_table" = .str t.name
  date : ∃ s, d.get "day" = .str s ∧ d.get "source_day" = .str s ∧ fromisoformat s = some day
  artifact : ∃ sha, isSha256 sha = true ∧ d.get "local_sha256" = .str sha ∧ d.get "remote_fetch_sha256" = .str sha
  manifest : ∃ sha, isSha256 sha = true ∧ d.get "manifest_sha256" = .str sha ∧ d.get "remote_manifest_sha256" = .str sha
  bytes : ∃ n, (d.get "local_bytes").positiveInt = some n ∧ (d.get "remote_fetch_bytes").positiveInt = some n
  rows : (d.get "local_rows").positiveInt = some proof.rows ∧
    (d.get "remote_fetch_rows").positiveInt = some proof.rows ∧
    (d.get "source_rows").positiveInt = some proof.rows
  content : d.get "source_content_sha256" = .str proof.sha ∧ isSha256 proof.sha = true
  bounds : (d.get "source_from_us").eqInt (dayStartUs day) = true ∧
    (d.get "source_to_us").eqInt (dayStartUs day + dayUs) = true
  object : ∃ s, s ≠ "" ∧ d.get "object_id" = .str s

theorem asStr_eq_some {v : Value} {s : String} : v.asStr = some s ↔ v = .str s := by
  cases v <;> simp [Value.asStr]

theorem eqStr_iff {v : Value} {s : String} : v.eqStr s = true ↔ v = .str s := by
  rw [Value.eqStr, beq_iff_eq, asStr_eq_some]

theorem sha256_eq_some {v : Value} {s : String} : v.sha256 = some s ↔ v = .str s ∧ isSha256 s = true := by
  rw [Value.sha256, Option.filter_eq_some_iff, asStr_eq_some]

/-- **The strict check** accepts exactly the verified receipts. -/
theorem strictReceipt_iff {fromisoformat : String → Option Int} {d : Fields} {t : Table} {day : Int}
    {proof : DayProof} :
    strictReceipt fromisoformat (.dict d) t = some (day, proof) ↔ Verified fromisoformat d t day proof := by
  constructor
  · intro h
    obtain ⟨_, hstatus, h⟩ := Option.bind_eq_some_iff.1 h
    obtain ⟨dayValue, hday, h⟩ := Option.bind_eq_some_iff.1 h
    obtain ⟨_, htable, h⟩ := Option.bind_eq_some_iff.1 h
    obtain ⟨_, hparse, h⟩ := Option.bind_eq_some_iff.1 h
    obtain ⟨localSha, hlocal, h⟩ := Option.bind_eq_some_iff.1 h
    obtain ⟨_, hremote, h⟩ := Option.bind_eq_some_iff.1 h
    obtain ⟨manifestSha, hmanifest, h⟩ := Option.bind_eq_some_iff.1 h
    obtain ⟨_, hremoteManifest, h⟩ := Option.bind_eq_some_iff.1 h
    obtain ⟨sourceSha, hsource, h⟩ := Option.bind_eq_some_iff.1 h
    obtain ⟨_, hshas, h⟩ := Option.bind_eq_some_iff.1 h
    obtain ⟨bytes, hbytes, h⟩ := Option.bind_eq_some_iff.1 h
    obtain ⟨_, hremoteBytes, h⟩ := Option.bind_eq_some_iff.1 h
    obtain ⟨rows, hrows, h⟩ := Option.bind_eq_some_iff.1 h
    obtain ⟨_, hremoteRows, h⟩ := Option.bind_eq_some_iff.1 h
    obtain ⟨_, hsourceRows, h⟩ := Option.bind_eq_some_iff.1 h
    obtain ⟨_, hcounts, h⟩ := Option.bind_eq_some_iff.1 h
    obtain ⟨_, hsubject, h⟩ := Option.bind_eq_some_iff.1 h
    obtain ⟨_, hbounds, h⟩ := Option.bind_eq_some_iff.1 h
    obtain ⟨objectId, hobject, h⟩ := Option.bind_eq_some_iff.1 h
    obtain ⟨_, hnonempty, h⟩ := Option.bind_eq_some_iff.1 h
    cases h
    obtain ⟨hschema, hstatus⟩ := (Option.guard_eq_some' _).1 hstatus
    obtain ⟨rfl, rfl⟩ := (Option.guard_eq_some' _).1 hshas
    obtain ⟨rfl, rfl, rfl⟩ := (Option.guard_eq_some' _).1 hcounts
    obtain ⟨hsourceTable, hsourceDay⟩ := (Option.guard_eq_some' _).1 hsubject
    rw [sha256_eq_some] at hlocal hremote hmanifest hremoteManifest hsource
    exact {
      schema := hschema
      status := eqStr_iff.1 hstatus
      table := ⟨eqStr_iff.1 ((Option.guard_eq_some' _).1 htable), eqStr_iff.1 hsourceTable⟩
      date := ⟨dayValue, asStr_eq_some.1 hday, eqStr_iff.1 hsourceDay, hparse⟩
      artifact := ⟨localSha, hlocal.2, hlocal.1, hremote.1⟩
      manifest := ⟨manifestSha, hmanifest.2, hmanifest.1, hremoteManifest.1⟩
      bytes := ⟨bytes, hbytes, hremoteBytes⟩
      rows := ⟨hrows, hremoteRows, hsourceRows⟩
      content := hsource
      bounds := (Option.guard_eq_some' _).1 hbounds
      object := ⟨objectId, (Option.guard_eq_some' _).1 hnonempty, asStr_eq_some.1 hobject⟩ }
  · intro h
    obtain ⟨dayValue, hday, hsourceDay, hparse⟩ := h.date
    obtain ⟨sha, hhex, hlocal, hremote⟩ := h.artifact
    obtain ⟨manifestSha, hmhex, hmanifest, hremoteManifest⟩ := h.manifest
    obtain ⟨bytes, hbytes, hremoteBytes⟩ := h.bytes
    obtain ⟨hrows, hremoteRows, hsourceRows⟩ := h.rows
    obtain ⟨objectId, hne, hobject⟩ := h.object
    refine Option.bind_eq_some_iff.2 ⟨(), (Option.guard_eq_some' _).2 ⟨h.schema, eqStr_iff.2 h.status⟩, ?_⟩
    refine Option.bind_eq_some_iff.2 ⟨dayValue, asStr_eq_some.2 hday, ?_⟩
    refine Option.bind_eq_some_iff.2 ⟨(), (Option.guard_eq_some' _).2 (eqStr_iff.2 h.table.1), ?_⟩
    refine Option.bind_eq_some_iff.2 ⟨day, hparse, ?_⟩
    refine Option.bind_eq_some_iff.2 ⟨sha, sha256_eq_some.2 ⟨hlocal, hhex⟩, ?_⟩
    refine Option.bind_eq_some_iff.2 ⟨sha, sha256_eq_some.2 ⟨hremote, hhex⟩, ?_⟩
    refine Option.bind_eq_some_iff.2 ⟨manifestSha, sha256_eq_some.2 ⟨hmanifest, hmhex⟩, ?_⟩
    refine Option.bind_eq_some_iff.2 ⟨manifestSha, sha256_eq_some.2 ⟨hremoteManifest, hmhex⟩, ?_⟩
    refine Option.bind_eq_some_iff.2 ⟨proof.sha, sha256_eq_some.2 h.content, ?_⟩
    refine Option.bind_eq_some_iff.2 ⟨(), (Option.guard_eq_some' _).2 ⟨rfl, rfl⟩, ?_⟩
    refine Option.bind_eq_some_iff.2 ⟨bytes, hbytes, ?_⟩
    refine Option.bind_eq_some_iff.2 ⟨bytes, hremoteBytes, ?_⟩
    refine Option.bind_eq_some_iff.2 ⟨proof.rows, hrows, ?_⟩
    refine Option.bind_eq_some_iff.2 ⟨proof.rows, hremoteRows, ?_⟩
    refine Option.bind_eq_some_iff.2 ⟨proof.rows, hsourceRows, ?_⟩
    refine Option.bind_eq_some_iff.2 ⟨(), (Option.guard_eq_some' _).2 ⟨rfl, rfl, rfl⟩, ?_⟩
    refine Option.bind_eq_some_iff.2 ⟨(), (Option.guard_eq_some' _).2 ⟨eqStr_iff.2 h.table.2, eqStr_iff.2 hsourceDay⟩,
      ?_⟩
    refine Option.bind_eq_some_iff.2 ⟨(), (Option.guard_eq_some' _).2 h.bounds, ?_⟩
    refine Option.bind_eq_some_iff.2 ⟨objectId, asStr_eq_some.2 hobject, ?_⟩
    exact Option.bind_eq_some_iff.2 ⟨(), (Option.guard_eq_some' _).2 hne, rfl⟩

theorem strictReceipt_dict {fromisoformat : String → Option Int} {data : Value} {t : Table} {e : Int × DayProof}
    (h : strictReceipt fromisoformat data t = some e) : ∃ d, data = .dict d := by
  cases data with
  | dict d => exact ⟨d, rfl⟩
  | null | bool | int | float | str | list => cases h

/-- A receipt that is looked up is the document of a file, and that document is verified. -/
theorem get_verified {fromisoformat : String → Option Int} {files : List File} {t : Table} {day : Int}
    {proof : DayProof}
    (h : (remoteVerifiedReceipts fromisoformat files).get t day = some proof) :
    ∃ f ∈ files, f.isJson = true ∧ ∃ d, f.data = some (.dict d) ∧ Verified fromisoformat d t day proof := by
  obtain ⟨e, he, rfl⟩ := Option.map_eq_some_iff.1 h
  have hday : e.1 = day := by simpa using List.find?_some he
  obtain ⟨f, hf, hdata⟩ := List.mem_filterMap.1 (List.mem_reverse.1 (List.mem_of_find?_eq_some he))
  obtain ⟨hmem, hjson⟩ := List.mem_filter.1 hf
  obtain ⟨data, hd, hstrict⟩ := Option.bind_eq_some_iff.1 hdata
  obtain ⟨d, rfl⟩ := strictReceipt_dict hstrict
  refine ⟨f, hmem, hjson, d, hd, ?_⟩
  rw [← hday]
  exact strictReceipt_iff.1 hstrict

/-! ## The receipt the archive writes (archive.py:95-147) -/

structure RemoteArtifactReceipt where
  schemaVersion : Int
  objectId : String
  artifact : String
  manifest : String
  table : Option String
  day : Option String
  localSha256 : String
  localBytes : Int
  localRows : Int
  remoteFetchSha256 : String
  remoteFetchBytes : Int
  remoteFetchRows : Int
  manifestSha256 : String
  remoteManifestSha256 : String
  sourceTable : Option String
  sourceDay : Option String
  sourceFromUs : Option Int
  sourceToUs : Option Int
  sourceRows : Option Int
  sourceContentSha256 : Option String
  verifiedAt : String
  transport : String
  status : String

/-- `None` as `null`. -/
def Value.ofOption {α : Type} (f : α → Value) (v : Option α) : Value := (v.map f).getD .null

/-- `to_json`. -/
def RemoteArtifactReceipt.toJson (r : RemoteArtifactReceipt) : Fields :=
  [("schema_version", .int r.schemaVersion), ("object_id", .str r.objectId), ("artifact", .str r.artifact),
    ("manifest", .str r.manifest), ("table", .ofOption .str r.table), ("day", .ofOption .str r.day),
    ("local_sha256", .str r.localSha256), ("local_bytes", .int r.localBytes), ("local_rows", .int r.localRows),
    ("remote_fetch_sha256", .str r.remoteFetchSha256), ("remote_fetch_bytes", .int r.remoteFetchBytes),
    ("remote_fetch_rows", .int r.remoteFetchRows), ("manifest_sha256", .str r.manifestSha256),
    ("remote_manifest_sha256", .str r.remoteManifestSha256), ("source_table", .ofOption .str r.sourceTable),
    ("source_day", .ofOption .str r.sourceDay), ("source_from_us", .ofOption .int r.sourceFromUs),
    ("source_to_us", .ofOption .int r.sourceToUs), ("source_rows", .ofOption .int r.sourceRows),
    ("source_content_sha256", .ofOption .str r.sourceContentSha256), ("verified_at", .str r.verifiedAt),
    ("transport", .str r.transport), ("status", .str r.status)]

/-- What a receipt that was written must hold for `_strict_receipt` to accept it. -/
structure RemoteArtifactReceipt.Complete (r : RemoteArtifactReceipt) (t : Table) (dayText : String) (day : Int)
    (proof : DayProof) :
    Prop where
  schema : r.schemaVersion = 1
  status : r.status = "verified"
  tables : r.table = some t.name ∧ r.sourceTable = some t.name
  days : r.day = some dayText ∧ r.sourceDay = some dayText
  artifact : r.remoteFetchSha256 = r.localSha256 ∧ isSha256 r.localSha256 = true
  manifest : r.remoteManifestSha256 = r.manifestSha256 ∧ isSha256 r.manifestSha256 = true
  bytes : r.remoteFetchBytes = r.localBytes ∧ 0 ≤ r.localBytes
  rows : r.localRows = proof.rows ∧ r.remoteFetchRows = proof.rows ∧ r.sourceRows = some (proof.rows : Int)
  content : r.sourceContentSha256 = some proof.sha ∧ isSha256 proof.sha = true
  bounds : r.sourceFromUs = some (dayStartUs day) ∧ r.sourceToUs = some (dayStartUs day + dayUs)
  object : r.objectId ≠ ""

theorem toJson_verified {fromisoformat : String → Option Int} {r : RemoteArtifactReceipt} {t : Table}
    {dayText : String} {day : Int}
    {proof : DayProof} (h : r.Complete t dayText day proof) (hday : fromisoformat dayText = some day) :
    Verified fromisoformat r.toJson t day proof := by
  have hrows : (0 : Int) ≤ proof.rows := Int.natCast_nonneg _
  exact {
    schema := by simp [RemoteArtifactReceipt.toJson, Fields.get, h.schema, Value.eqInt]
    status := by simp [RemoteArtifactReceipt.toJson, Fields.get, h.status]
    table := by simp [RemoteArtifactReceipt.toJson, Fields.get, h.tables, Value.ofOption]
    date := ⟨dayText, by simp [RemoteArtifactReceipt.toJson, Fields.get, h.days, Value.ofOption],
      by simp [RemoteArtifactReceipt.toJson, Fields.get, h.days, Value.ofOption], hday⟩
    artifact := ⟨r.localSha256, h.artifact.2, by simp [RemoteArtifactReceipt.toJson, Fields.get],
      by simp [RemoteArtifactReceipt.toJson, Fields.get, h.artifact.1]⟩
    manifest := ⟨r.manifestSha256, h.manifest.2, by simp [RemoteArtifactReceipt.toJson, Fields.get],
      by simp [RemoteArtifactReceipt.toJson, Fields.get, h.manifest.1]⟩
    bytes := ⟨r.localBytes.toNat, by simp [RemoteArtifactReceipt.toJson, Fields.get, Value.positiveInt, h.bytes.2],
      by simp [RemoteArtifactReceipt.toJson, Fields.get, Value.positiveInt, h.bytes]⟩
    rows := by simp [RemoteArtifactReceipt.toJson, Fields.get, Value.positiveInt, Value.ofOption, h.rows, hrows]
    content := by simp [RemoteArtifactReceipt.toJson, Fields.get, Value.ofOption, h.content]
    bounds := by simp [RemoteArtifactReceipt.toJson, Fields.get, Value.ofOption, h.bounds, Value.eqInt]
    object := ⟨r.objectId, h.object, by simp [RemoteArtifactReceipt.toJson, Fields.get]⟩ }

end Retention
