import MarketFeed.Retention.Archive
/-!
# What the archive's files say of a day (archive.py:204-343, :500-606)

Every manifest of a day, and with it every receipt, was taken from the table when the day was exported
(`plan_manifest`, `roundtrip_complete`). Restoring, preserving and fetching back only pass it on.
-/

namespace Retention.Archive

open Keyed (lookup upsert erase)

variable {x : Archiver}

/-! ## Files -/

theorem mem_put {seg : Segment} {w v : Path × Content} (h : v ∈ seg.put w) : v ∈ seg ∨ v = w := by
  rcases Keyed.mem_upsert h with h | h | ⟨_, _, h⟩
  · exact .inl h
  · exact .inr h
  · exact .inr h

theorem mem_writes {ws : List (Path × Content)} : ∀ {seg : Segment} {v : Path × Content}, v ∈ seg.writes ws →
    v ∈ seg ∨ v ∈ ws := by
  induction ws with
  | nil => exact fun h => .inl h
  | cons w ws ih =>
    intro seg v h
    rcases ih h with h | h
    · rcases mem_put h with h | rfl
      · exact .inl h
      · exact .inr List.mem_cons_self
    · exact .inr (List.mem_cons_of_mem w h)

theorem get_put (seg : Segment) (w : Path × Content) (p : Path) : (seg.put w).get p = if w.1 = p then some w.2
    else seg.get p := by
  unfold Segment.get Segment.put
  rw [Keyed.lookup_replace]
  split <;> rfl

/-- Writes to other files leave a file as it is. -/
theorem get_writes_of_notMem {ws : List (Path × Content)} {p : Path} (h : ∀ w ∈ ws, w.1 ≠ p) : ∀ seg : Segment,
    (seg.writes ws).get p = seg.get p := by
  induction ws with
  | nil => exact fun _ => rfl
  | cons w ws ih =>
    intro seg
    rw [Segment.writes, List.foldl_cons]
    refine (ih (fun v hv => h v (List.mem_cons_of_mem w hv)) (seg.put w)).trans ?_
    rw [get_put, if_neg (h w List.mem_cons_self)]

theorem mem_of_get {seg : Segment} {p : Path} {c : Content} (h : seg.get p = some c) : (p, c) ∈ seg := by
  obtain ⟨⟨p', c'⟩, hl, rfl⟩ := Option.map_eq_some_iff.1 h
  obtain rfl : p' = p := Keyed.key_of_lookup hl
  exact Keyed.mem_of_lookup hl

theorem readManifest_eq_some {seg : Segment} {m : Manifest} : seg.readManifest = some m ↔
    seg.get .manifest = some (.manifest m) := by
  unfold Segment.readManifest
  split
  · rename_i m' h
    simp [h]
  · rename_i h
    simp only [reduceCtorEq, false_iff]
    exact h m

/-! ## Manifests -/

/-- The files of a day hold this manifest, or a version of it. -/
def HasManifest (seg : Segment) (m : Manifest) : Prop := ∃ p, (p, Content.manifest m) ∈ seg

theorem restorable_mem {seg : Segment} {c : String × Manifest} (h : seg.restorable = some c) : c ∈ seg.candidates := by
  have hfold : ∀ (cs : List (String × Manifest)) (best : Option (String × Manifest)),
      (∀ b, best = some b → b ∈ seg.candidates) →
      (∀ b ∈ cs, b ∈ seg.candidates) →
      ∀ c, cs.foldl (fun best c => if (best.map (·.2.rows)).any (c.2.rows ≤ ·) then best else some c) best = some c →
        c ∈ seg.candidates := by
    intro cs
    induction cs with
    | nil => exact fun best hbest _ c hc => hbest c hc
    | cons b cs ih =>
      intro best hbest hcs c hc
      refine ih _ ?_ (fun b' hb' => hcs b' (List.mem_cons_of_mem b hb')) c hc
      intro b' hb'
      dsimp only at hb'
      split at hb'
      · exact hbest b' hb'
      · cases hb'
        exact hcs b List.mem_cons_self
  exact hfold seg.candidates none (fun b hb => by cases hb) (fun b hb => hb) c h

/-- A candidate is a version's manifest, and verifies its version. -/
theorem candidates_spec {seg : Segment} {sha : String} {m : Manifest} (h : (sha, m) ∈ seg.candidates) :
    (Path.versionManifest sha, Content.manifest m) ∈ seg ∧ verifyFile (seg.get (.version sha)) m = true := by
  rw [Segment.candidates, List.mem_insertionSort, List.mem_filterMap] at h
  obtain ⟨⟨p, c⟩, hmem, h⟩ := h
  cases p with
  | versionManifest sha' =>
    cases c with
    | manifest m' =>
      simp only at h
      split at h
      · rename_i hver
        cases h
        exact ⟨hmem, hver⟩
      · cases h
    | torn | artifact => cases h
  | file | manifest | version => cases h

theorem mem_written {p : Path} {c : Content} {w : Path × Content} (h : w ∈ written p c) : w.1 = p ∧
    (w.2 = .torn ∨ w.2 = c) := by
  rcases List.mem_cons.1 h with rfl | h
  · exact ⟨rfl, .inl rfl⟩
  · rw [List.mem_singleton.1 h]
    exact ⟨rfl, .inr rfl⟩

/-- Versions are written as versions, and hold what they are of. -/
theorem mem_preserve {seg : Segment} {m : Manifest} {file : Content} {w : Path × Content}
    (h : w ∈ seg.preserve m file) :
    w.1 ≠ .file ∧ w.1 ≠ .manifest ∧ (w.2 = .torn ∨ w.2 = file ∨ w.2 = .manifest m) := by
  rcases List.mem_append.1 h with h | h
  · split at h
    · cases h
    · obtain ⟨h1, h2⟩ := mem_written h
      rw [h1]
      refine ⟨by simp, by simp, ?_⟩
      rcases h2 with h2 | h2
      · exact .inl h2
      · exact .inr (.inl h2)
  · split at h
    · cases h
    · obtain ⟨h1, h2⟩ := mem_written h
      rw [h1]
      refine ⟨by simp, by simp, ?_⟩
      rcases h2 with h2 | h2
      · exact .inl h2
      · exact .inr (.inr h2)

/-- A file is put in place as an artifact or torn, never as a manifest. -/
theorem getD_file {seg : Segment} {p : Path} {m m' : Manifest} (h : verifyFile (seg.get p) m = true) :
    (seg.get p).getD .torn ≠ .manifest m' := by
  unfold verifyFile at h
  split at h
  · rename_i hget
    rw [hget]
    simp
  · cases h

theorem restoreOrExport_manifest {s : Store} {t : Table} {d : Int} {seg : Segment} {p : Path} {m : Manifest}
    (h : (p, Content.manifest m) ∈ x.restoreOrExport s t d seg) : HasManifest seg m ∨ m = x.manifestOf s t d := by
  unfold Archiver.restoreOrExport at h
  split at h
  · rename_i sha m' hr
    have hcand := candidates_spec (restorable_mem hr)
    rcases List.mem_append.1 h with h | h
    · obtain ⟨_, h | h⟩ := mem_written h
      · cases h
      · exact absurd h.symm (getD_file hcand.2)
    · obtain ⟨_, h | h⟩ := mem_written h
      · cases h
      · cases h
        exact .inl ⟨_, hcand.1⟩
  · rcases List.mem_append.1 h with h | h
    · rcases List.mem_cons.1 h with h | h
      · cases h
      · obtain ⟨_, h | h⟩ := mem_written h
        · cases h
        · cases h
          exact .inr rfl
    · obtain ⟨_, _, h | h | h⟩ := mem_preserve h
      · cases h
      · cases h
      · cases h
        exact .inr rfl

/-- **A manifest that is written** is one the day has, or says what the table holds now. -/
theorem plan_manifest {s : Store} {t : Table} {d : Int} {seg : Segment} {p : Path} {m : Manifest}
    (h : (p, Content.manifest m) ∈ x.plan s t d seg) : HasManifest seg m ∨ m = x.manifestOf s t d := by
  unfold Archiver.plan at h
  split at h
  · rename_i existing hexisting
    split at h
    · rename_i hver
      obtain ⟨_, _, h | h | h⟩ := mem_preserve h
      · cases h
      · exact absurd h.symm (getD_file hver)
      · cases h
        exact .inl ⟨_, mem_of_get (readManifest_eq_some.1 hexisting)⟩
    · exact restoreOrExport_manifest h
  · exact restoreOrExport_manifest h

/-- The manifest of an export at which the day's rows had this count and digest. -/
structure Manifest.Of (x : Archiver) (t : Table) (d : Int) (proof : DayProof) (m : Manifest) : Prop where
  subject : m.sourceTable = t.name ∧ m.sourceDay = x.isoformat d
  bounds : m.sourceFromUs = dayStartUs d ∧ m.sourceToUs = dayStartUs d + dayUs
  rows : m.rows = proof.rows ∧ m.sourceRows = proof.rows
  content : m.sourceContentSha256 = proof.sha ∧ isSha256 proof.sha = true
  artifact : isSha256 m.sha256 = true

theorem manifestOf_of (s : Store) (t : Table) (d : Int) : (x.manifestOf s t d).Of x t d (x.env.dayProof s t d) :=
  ⟨⟨rfl, rfl⟩, ⟨rfl, rfl⟩, ⟨rfl, rfl⟩, ⟨rfl, x.digest_hex _ _⟩, x.artifact_hex _ _⟩

/-! ## Receipts -/

def objectIdOf (x : Archiver) (t : Table) (d : Int) (sha : String) : String :=
  "archive/" ++ t.name ++ "/" ++ x.isoformat d ++ "/" ++ sha ++ ".csv.gz"

theorem objectId_of {t : Table} {d : Int} {proof : DayProof} {m : Manifest} (h : m.Of x t d proof) :
    m.objectId = objectIdOf x t d proof.sha := by
  rw [Manifest.objectId, h.subject.1, h.subject.2, h.content.1, objectIdOf]

theorem objectIdOf_toList (t : Table) (d : Int) (sha : String) : (objectIdOf x t d sha).toList =
    "archive/".toList ++ (t.name.toList ++
      ('/' :: ((x.isoformat d).toList ++ ('/' :: (sha.toList ++ ".csv.gz".toList))))) := by
  simp [objectIdOf, String.toList_append]

/-- **The receipt of a day** is complete when its manifest is. -/
theorem roundtrip_complete {seg : Segment} {t : Table} {d : Int} {o : Outcome} {r : RemoteArtifactReceipt}
    (h : x.roundtrip seg t d o = some r) : ∃ m, seg.readManifest = some m ∧ verifyFile (seg.get .file) m = true ∧
      ∀ proof, m.Of x t d proof → r.objectId = objectIdOf x t d proof.sha ∧ r.Complete t (x.isoformat d) d proof := by
  cases o with
  | cut | failed => cases h
  | fetched a fetchedMan sha verifiedAt transport =>
    obtain ⟨m, hm, h⟩ := Option.bind_eq_some_iff.1 h
    obtain ⟨_, hver, h⟩ := Option.bind_eq_some_iff.1 h
    obtain ⟨_, hsha, h⟩ := Option.bind_eq_some_iff.1 h
    obtain ⟨fetched, _, h⟩ := Option.bind_eq_some_iff.1 h
    obtain ⟨_, _, h⟩ := Option.bind_eq_some_iff.1 h
    obtain ⟨_, hsame, h⟩ := Option.bind_eq_some_iff.1 h
    cases h
    obtain ⟨h256, hrows, hbytes⟩ := (Option.guard_eq_some' _).1 hsame
    refine ⟨m, hm, (Option.guard_eq_some' _).1 hver, fun proof hof => ⟨objectId_of hof, ?_⟩⟩
    exact {
      schema := rfl
      status := rfl
      tables := ⟨rfl, congrArg some hof.subject.1⟩
      days := ⟨rfl, congrArg some hof.subject.2⟩
      artifact := ⟨h256, hof.artifact⟩
      manifest := ⟨(Option.guard_eq_some' _).1 hsha, x.manifest_hex m⟩
      bytes := ⟨congrArg Int.ofNat hbytes, Int.natCast_nonneg _⟩
      rows := ⟨congrArg Int.ofNat hof.rows.1, congrArg Int.ofNat (hrows.trans hof.rows.1),
        congrArg (some ∘ Int.ofNat) hof.rows.2⟩
      content := ⟨congrArg some hof.content.1, hof.content.2⟩
      bounds := ⟨congrArg some hof.bounds.1, congrArg some hof.bounds.2⟩
      object := by
        intro hempty
        have hlist := congrArg String.toList ((objectId_of hof).symm.trans hempty)
        rw [objectIdOf_toList] at hlist
        simp at hlist }

/-- A file with the receipt of a day. -/
def IsReceipt (x : Archiver) (t : Table) (d : Int) (proof : DayProof) (f : File) : Prop :=
  x.isDate d = true ∧ ∃ r : RemoteArtifactReceipt, f = ⟨receiptName r.objectId, some (.dict r.toJson)⟩ ∧
    r.objectId = objectIdOf x t d proof.sha ∧ r.Complete t (x.isoformat d) d proof

theorem isJson_receiptName (id : String) (data : Option Value) : File.isJson ⟨receiptName id, data⟩ = true := by
  rw [File.isJson, List.isSuffixOf_iff_suffix]
  simp only [receiptName, String.toList_ofList]
  exact List.suffix_append _ _

theorem name_injective {t t' : Table} (h : t.name = t'.name) : t = t' := by
  cases t <;> cases t' <;> first | rfl | exact absurd h (by decide)

/-- **Two receipts in one file** are of the same day. -/
theorem day_of_name {t t' : Table} {d d' : Int} {proof proof' : DayProof} {f f' : File} (h : IsReceipt x t d proof f)
    (h' : IsReceipt x t' d' proof' f') (hname : f.name = f'.name) : t = t' ∧ d = d' := by
  obtain ⟨hd, r, rfl, hid, _⟩ := h
  obtain ⟨hd', r', rfl, hid', _⟩ := h'
  have hlist := congrArg String.toList hname
  simp only [receiptName, hid, hid', String.toList_ofList, objectIdOf_toList, List.map_append, List.map_cons] at hlist
  have hplain : ∀ d, x.isDate d = true →
      (x.isoformat d).toList.map (fun c => if c = '/' then '_' else c) = (x.isoformat d).toList := by
    intro d hd
    refine (List.map_congr_left fun c hc => ?_).trans (List.map_id _)
    have hne : c ≠ '/' := by
      rintro rfl
      exact x.iso_chars d hd hc
    rw [if_neg hne]
    rfl
  rw [hplain d hd, hplain d' hd'] at hlist
  simp only [List.append_assoc, List.cons_append] at hlist
  have hnames := List.append_cancel_left hlist
  have htrades : Table.trades.name.toList = ['t', 'r', 'a', 'd', 'e', 's'] := by decide +kernel
  have hbook : Table.bookTop.name.toList = ['b', 'o', 'o', 'k', '_', 't', 'o', 'p'] := by decide +kernel
  have hlen : (x.isoformat d).toList.length = (x.isoformat d').toList.length := by
    rw [x.iso_length d hd, x.iso_length d' hd']
  have hday : t = t' → d = d' := by
    rintro rfl
    have hrest := List.cons.inj (List.append_cancel_left hnames)
    have hiso := String.toList_injective (List.append_inj_left hrest.2 hlen)
    exact Option.some.inj ((x.iso d hd).symm.trans (hiso ▸ x.iso d' hd'))
  have ht : t = t' := by
    cases t <;> cases t'
    · rfl
    · simp [htrades, hbook] at hnames
    · simp [htrades, hbook] at hnames
    · rfl
  exact ⟨ht, hday ht⟩

/-! ## Reading the receipts -/

variable {f : File} {t t' : Table} {d d' : Int} {proof proof' : DayProof}

theorem IsReceipt.verified (h : IsReceipt x t d proof f) :
    f.isJson = true ∧ ∃ doc, f.data = some (.dict doc) ∧ Verified x.fromisoformat doc t d proof := by
  obtain ⟨hd, r, rfl, _, hcomplete⟩ := h
  exact ⟨isJson_receiptName _ _, r.toJson, rfl, toJson_verified hcomplete (x.iso d hd)⟩

/-- A document is verified for one day of one table. -/
theorem verified_unique {fromisoformat : String → Option Int} {doc : Fields} (h : Verified fromisoformat doc t d proof)
    (h' : Verified fromisoformat doc t' d' proof') : t = t' ∧ d = d' ∧ proof = proof' := by
  obtain ⟨s, hs, _, hday⟩ := h.date
  obtain ⟨s', hs', _, hday'⟩ := h'.date
  obtain rfl : s = s' := Value.str.inj (hs.symm.trans hs')
  refine ⟨name_injective (Value.str.inj (h.table.1.symm.trans h'.table.1)), Option.some.inj (hday.symm.trans hday'), ?_⟩
  obtain ⟨rows, sha⟩ := proof
  obtain ⟨rows', sha'⟩ := proof'
  obtain rfl : rows = rows' := Option.some.inj (h.rows.1.symm.trans h'.rows.1)
  obtain rfl : sha = sha' := Value.str.inj (h.content.1.symm.trans h'.content.1)
  rfl

theorem receiptDay_of_verified {fromisoformat : String → Option Int} {doc : Fields}
    (h : Verified fromisoformat doc t d proof) :
    receiptDay fromisoformat (.dict doc) t = some d := by
  obtain ⟨dayValue, hday, hsourceDay, hparse⟩ := h.date
  obtain ⟨sha, hhex, hlocal, hremote⟩ := h.artifact
  obtain ⟨manifestSha, hmhex, hmanifest, hremoteManifest⟩ := h.manifest
  refine Option.bind_eq_some_iff.2 ⟨(), (Option.guard_eq_some' _).2 h.schema, ?_⟩
  refine Option.bind_eq_some_iff.2 ⟨(), (Option.guard_eq_some' _).2 ⟨eqStr_iff.2 h.status, eqStr_iff.2 h.table.1⟩, ?_⟩
  refine Option.bind_eq_some_iff.2 ⟨dayValue, asStr_eq_some.2 hday, ?_⟩
  refine Option.bind_eq_some_iff.2 ⟨sha, sha256_eq_some.2 ⟨hlocal, hhex⟩, ?_⟩
  refine Option.bind_eq_some_iff.2 ⟨sha, sha256_eq_some.2 ⟨hremote, hhex⟩, ?_⟩
  refine Option.bind_eq_some_iff.2 ⟨manifestSha, sha256_eq_some.2 ⟨hmanifest, hmhex⟩, ?_⟩
  refine Option.bind_eq_some_iff.2 ⟨manifestSha, sha256_eq_some.2 ⟨hremoteManifest, hmhex⟩, ?_⟩
  refine Option.bind_eq_some_iff.2 ⟨proof.sha, sha256_eq_some.2 h.content, ?_⟩
  refine Option.bind_eq_some_iff.2 ⟨(), (Option.guard_eq_some' _).2 rfl, ?_⟩
  refine Option.bind_eq_some_iff.2 ⟨(), (Option.guard_eq_some' _).2 rfl, ?_⟩
  exact Option.bind_eq_some_iff.2 ⟨(), (Option.guard_eq_some' _).2 ⟨eqStr_iff.2 h.table.2, eqStr_iff.2 hsourceDay⟩,
    hparse⟩

theorem receiptDay_spec {fromisoformat : String → Option Int} {doc : Fields}
    (h : receiptDay fromisoformat (.dict doc) t = some d) :
    doc.get "table" = .str t.name ∧ ∃ s, doc.get "day" = .str s ∧ fromisoformat s = some d := by
  obtain ⟨_, _, h⟩ := Option.bind_eq_some_iff.1 h
  obtain ⟨_, hstatus, h⟩ := Option.bind_eq_some_iff.1 h
  obtain ⟨dayValue, hday, h⟩ := Option.bind_eq_some_iff.1 h
  obtain ⟨_, _, h⟩ := Option.bind_eq_some_iff.1 h
  obtain ⟨_, _, h⟩ := Option.bind_eq_some_iff.1 h
  obtain ⟨_, _, h⟩ := Option.bind_eq_some_iff.1 h
  obtain ⟨_, _, h⟩ := Option.bind_eq_some_iff.1 h
  obtain ⟨_, _, h⟩ := Option.bind_eq_some_iff.1 h
  obtain ⟨_, _, h⟩ := Option.bind_eq_some_iff.1 h
  obtain ⟨_, _, h⟩ := Option.bind_eq_some_iff.1 h
  obtain ⟨_, _, h⟩ := Option.bind_eq_some_iff.1 h
  exact ⟨eqStr_iff.1 ((Option.guard_eq_some' _).1 hstatus).2, dayValue, asStr_eq_some.1 hday, h⟩

/-- A directory of nothing but receipts. -/
def Receipted (x : Archiver) (dir : List File) : Prop := ∀ f ∈ dir, ∃ t d proof, IsReceipt x t d proof f

theorem mem_remoteReceiptDays {dir : List File} (h : Receipted x dir) :
    d ∈ remoteReceiptDays x.fromisoformat dir t ↔ ∃ f ∈ dir, ∃ proof, IsReceipt x t d proof f := by
  rw [remoteReceiptDays, List.mem_filterMap]
  constructor
  · rintro ⟨f, hf, hday⟩
    have hmem := (List.mem_filter.1 hf).1
    obtain ⟨t', d', proof, hreceipt⟩ := h f hmem
    obtain ⟨_, doc, hdata, hver⟩ := hreceipt.verified
    rw [hdata] at hday
    obtain ⟨htable, s, hs, hparse⟩ := receiptDay_spec hday
    obtain ⟨s', hs', _, hparse'⟩ := hver.date
    obtain rfl : t' = t := name_injective (Value.str.inj (hver.table.1.symm.trans htable))
    obtain rfl : s' = s := Value.str.inj (hs'.symm.trans hs)
    obtain rfl : d' = d := Option.some.inj (hparse'.symm.trans hparse)
    exact ⟨f, hmem, proof, hreceipt⟩
  · rintro ⟨f, hmem, proof, hreceipt⟩
    obtain ⟨hjson, doc, hdata, hver⟩ := hreceipt.verified
    refine ⟨f, List.mem_filter.2 ⟨hmem, hjson⟩, ?_⟩
    rw [hdata]
    exact receiptDay_of_verified hver

/-- Where every receipt of the day has one count and digest, that is what the retention check reads. -/
theorem get_of_receipted {dir : List File} (hone : ∀ f ∈ dir, ∀ proof', IsReceipt x t d proof' f → proof' = proof)
    (hreceipted : Receipted x dir) {f : File} (hf : f ∈ dir) (h : IsReceipt x t d proof f) :
    (remoteVerifiedReceipts x.fromisoformat dir).get t d = some proof := by
  have hsome : ((remoteVerifiedReceipts x.fromisoformat dir).get t d).isSome = true := by
    obtain ⟨hjson, doc, hdata, hver⟩ := h.verified
    have hmem : (d, proof) ∈ remoteVerifiedReceipts x.fromisoformat dir t :=
      List.mem_filterMap.2 ⟨f, List.mem_filter.2 ⟨hf, hjson⟩, by rw [hdata]; exact strictReceipt_iff.2 hver⟩
    rw [Receipts.get, Option.isSome_map, List.find?_isSome]
    exact ⟨(d, proof), List.mem_reverse.2 hmem, by simp⟩
  obtain ⟨proof', hget⟩ := Option.isSome_iff_exists.1 hsome
  obtain ⟨g, hg, _, doc, hdata, hver⟩ := get_verified hget
  obtain ⟨t', d', proof'', hreceipt⟩ := hreceipted g hg
  obtain ⟨_, doc', hdata', hver'⟩ := hreceipt.verified
  obtain rfl : doc = doc' := Value.dict.inj (Option.some.inj (hdata.symm.trans hdata'))
  obtain ⟨rfl, rfl, rfl⟩ := verified_unique hver hver'
  rw [hget, hone g hg proof' hreceipt]

end Retention.Archive
