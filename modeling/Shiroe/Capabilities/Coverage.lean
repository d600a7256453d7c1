import Shiroe.Capabilities.Registry

/-!
# What the gate notices of a change

The digest of a source covers the files that its walk reads.  The gate compares it with the digest
that the registry keeps, so a capability passes after a change exactly when the covered files are
as they were.

* `assertExecutable_iff` : when the gate lets a capability pass;
* `gate_notices` : for which changes of a source an equal digest means an equal source.
-/

namespace Shiroe

open Act

variable (H : Host)

/-- All that the gate asks of a capability but the digest of its source: `digest` is the digest in
the registry and `source` what lies at its location. -/
structure Passable (w : World) (capabilityId : String) (digest : SqlVal) (source : Source) :
    Prop where
  encodes : H.encodes capabilityId = true
  row : ∃ row, w.db.capability? (.text capabilityId) = some row ∧
    isExecutable row.lifecycle = true ∧ row.currentDigest = digest
  version : ∃ version location manifest name,
    w.db.latestVersion? (.text capabilityId) = some version ∧
    version.sourceLocation.asStr = .ok location ∧
    w.outside.source (relativize H location) = some source ∧
    version.manifest.loads = .ok manifest ∧ manifestAdapter capabilityId manifest = .ok name ∧
    checkHealth name (w.outside.adapter name) = .ok ()

variable {H}

theorem getCapability_eq {w : World} {id : String} (h : H.encodes id = true) :
    getCapability H (.str id) w = .ok (w.db.capability? (.text id)) w := by
  have hb : bindText H (.str id) = .ok (.text id) := bindText_eq (j := .str id) h
  unfold getCapability readDb
  rw [Act.bind_of_ok (show (get : Op World) w = .ok w w from rfl), hb]
  rfl

theorem latestVersion_eq {w : World} {id : String} (h : H.encodes id = true) :
    latestVersion H id w = .ok (w.db.latestVersion? (.text id)) w := by
  have hb : bindText H (.str id) = .ok (.text id) := bindText_eq (j := .str id) h
  unfold latestVersion readDb
  rw [Act.bind_of_ok (show (get : Op World) w = .ok w w from rfl), hb]
  rfl

/-- A capability whose source has changed is not let through. -/
theorem resolveSource_drift {w : World} {i : ℕ} {id location : String} {row : CapabilityRow}
    {version : VersionRow} {source : Source} {trust : TrustReport}
    (hq : isExecutable (.text (H.scrub Lifecycle.quarantined.value)) = false)
    (hid : H.encodes id = true) (hrow : w.db.capability? (.text id) = some row)
    (hexec : isExecutable row.lifecycle = true)
    (hversion : w.db.latestVersion? (.text id) = some version)
    (hlocation : version.sourceLocation.asStr = .ok location)
    (hsource : w.outside.source (relativize H location) = some source)
    (htrust : inspectSource H source = .ok trust)
    (hne : SqlVal.text trust.digest ≠ row.currentDigest) :
    Act.wp (resolveSource H i id row.currentDigest)
      (fun current _ => isExecutable current.lifecycle = false) (fun _ _ => True) w := by
  obtain ⟨t, ht, hclear⟩ := cleared_of_isExecutable hexec
  have hnext : nextStateForDigestChange row.lifecycle = .quarantined := by
    rw [nextStateForDigestChange, ht, Lifecycle.ofColumn?_text, Lifecycle.ofText?_value, if_neg]
    intro h
    rw [Option.some.inj h] at hclear
    exact absurd hclear (by decide)
  have hst : w.db.standings (.text id) = some ⟨row.lifecycle, row.currentDigest⟩ := by
    rw [Db.standings, hrow]
    rfl
  unfold resolveSource
  rw [wp_bind, wp_of_ok (latestVersion_eq hid), hversion]
  simp only
  rw [wp_bind, wp_ofExcept, hlocation]
  simp only
  rw [wp_bind, wp_get, hsource]
  simp only
  rw [wp_bind, wp_ofExcept, htrust]
  simp only
  rw [if_pos hne, wp_bind]
  refine wp_mono (refreshDigest_spec i id trust.digest w) ?_ fun _ _ _ => trivial
  rintro - w₁ ⟨st, hst', hw₁⟩
  rw [hst] at hst'
  cases hst'
  rw [if_neg fun h => hne h.symm, hnext] at hw₁
  rw [wp_bind, wp_of_ok (getCapability_eq hid)]
  cases hrow₁ : w₁.db.capability? (.text id) with
  | none => exact (wp_throw _).2 trivial
  | some row₁ =>
    simp only
    have h₁ : w₁.db.standings (.text id) = some ⟨row₁.lifecycle, row₁.currentDigest⟩ := by
      rw [Db.standings, hrow₁]
      rfl
    rw [hw₁, Standings.write, Function.update_self, hst] at h₁
    have hl : row₁.lifecycle = .text (H.scrub Lifecycle.quarantined.value) :=
      (congrArg Standing.lifecycle (Option.some.inj h₁)).symm
    rw [wp_pure, hl]
    exact hq

/-- The source at the location of a capability: it has another digest, and then the capability is
not let through, or nothing happens. -/
theorem resolveSource_spec {w : World} {i : ℕ} {id : String} {row : CapabilityRow}
    (hq : isExecutable (.text (H.scrub Lifecycle.quarantined.value)) = false)
    (hid : H.encodes id = true) (hrow : w.db.capability? (.text id) = some row)
    (hexec : isExecutable row.lifecycle = true) :
    Act.wp (resolveSource H i id row.currentDigest)
      (fun current w' => isExecutable current.lifecycle = false ∨ w' = w ∧ current = row ∧
        ∃ version location source trust, w.db.latestVersion? (.text id) = some version ∧
          version.sourceLocation.asStr = .ok location ∧
          w.outside.source (relativize H location) = some source ∧
          inspectSource H source = .ok trust ∧ row.currentDigest = .text trust.digest)
      (fun _ _ => True) w := by
  cases hversion : w.db.latestVersion? (.text id) with
  | none =>
    rw [resolveSource, wp_bind, wp_of_ok (latestVersion_eq hid), hversion]
    exact (wp_throw _).2 trivial
  | some version =>
    cases hlocation : version.sourceLocation.asStr with
    | error x =>
      rw [resolveSource, wp_bind, wp_of_ok (latestVersion_eq hid), hversion]
      simp only [hlocation, wp_bind, wp_ofExcept]
    | ok location =>
      cases hsource : w.outside.source (relativize H location) with
      | none =>
        rw [resolveSource, wp_bind, wp_of_ok (latestVersion_eq hid), hversion]
        simp only [hlocation, hsource, wp_bind, wp_ofExcept, wp_get]
        exact (wp_throw _).2 trivial
      | some source =>
        cases htrust : inspectSource H source with
        | error x =>
          rw [resolveSource, wp_bind, wp_of_ok (latestVersion_eq hid), hversion]
          simp only [hlocation, hsource, htrust, wp_bind, wp_ofExcept, wp_get]
        | ok trust =>
          by_cases hsame : SqlVal.text trust.digest = row.currentDigest
          · rw [resolveSource, wp_bind, wp_of_ok (latestVersion_eq hid), hversion]
            simp only [hlocation, hsource, htrust, wp_bind, wp_ofExcept, wp_get]
            rw [if_neg (not_not_intro hsame), wp_bind, wp_of_ok (getCapability_eq hid), hrow]
            simp only
            rw [wp_pure]
            exact Or.inr ⟨rfl, rfl, version, location, source, trust, rfl, hlocation, hsource,
              htrust, hsame.symm⟩
          · exact wp_mono (resolveSource_drift hq hid hrow hexec hversion hlocation hsource htrust
              hsame) (fun _ _ h => Or.inl h) fun _ _ h => h

/-- **When the gate lets a capability pass**: what it asks for holds, and the source has the digest
that the registry keeps. -/
theorem assertExecutable_iff
    (hq : isExecutable (.text (H.scrub Lifecycle.quarantined.value)) = false)
    {w : World} {id : String} :
    (∃ w', assertExecutable H id w = .ok () w') ↔ ∃ source trust,
      Passable H w id (.text trust.digest) source ∧ inspectSource H source = .ok trust := by
  constructor
  · rintro ⟨w', h⟩
    refine (wp_of_ok (Q := fun _ _ => _) (E := fun _ _ => True) h).1 ?_
    rw [assertExecutable, wp_bind, wp_newLog, wp_bind]
    generalize hw₀ : ({ w with
      objects := w.objects + 1
      recovered := Function.update w.recovered w.objects false } : World) = w₀
    have hdb : w₀.db = w.db := hw₀ ▸ rfl
    have hout : w₀.outside = w.outside := hw₀ ▸ rfl
    by_cases hid : H.encodes id = true
    · rw [wp_of_ok (getCapability_eq hid)]
      cases hrow : w₀.db.capability? (.text id) with
      | none => exact (wp_throw _).2 trivial
      | some row =>
        dsimp only
        by_cases hexec : isExecutable row.lifecycle = false
        · rw [if_pos hexec, wp_bind]
          exact (wp_throw _).2 trivial
        · rw [if_neg hexec, wp_bind]
          rw [Bool.not_eq_false] at hexec
          refine wp_mono (resolveSource_spec hq hid hrow hexec) ?_ fun _ _ h => h
          rintro current w₁ (hno | ⟨rfl, rfl, version, location, source, trust, hversion, hlocation,
            hsource, htrust, hdig⟩)
          · rw [if_pos hno, wp_bind]
            exact (wp_throw _).2 trivial
          · rw [if_neg (by simp [hexec]), assertManifestAdapterExecutable, wp_bind,
              wp_of_ok (latestVersion_eq hid), hversion]
            simp only [wp_bind, wp_ofExcept, wp_get]
            split
            · rename_i manifest hmanifest
              split
              · rename_i name hname
                split
                · rename_i hhealth
                  rw [hdb] at hrow hversion
                  rw [hout] at hsource hhealth
                  exact ⟨source, trust, ⟨hid, ⟨_, hrow, hexec, hdig⟩, version, location, manifest,
                    name, hversion, hlocation, hsource, hmanifest, hname, hhealth⟩, htrust⟩
                · trivial
              · trivial
            · trivial
    · refine wp_mono (getCapability_str_spec id _) ?_ fun _ _ _ => trivial
      rintro row w₁ ⟨-, henc, -⟩
      exact absurd henc hid
  · rintro ⟨source, trust, hpass, htrust⟩
    obtain ⟨hid, ⟨row, hrow, hexec, hdig⟩, version, location, manifest, name, hversion, hlocation,
      hsource, hmanifest, hname, hhealth⟩ := hpass
    have hreturns : Act.wp (assertExecutable H id) (fun _ _ => True) (fun _ _ => False) w := by
      rw [assertExecutable, wp_bind, wp_newLog, wp_bind, wp_of_ok (getCapability_eq hid)]
      simp only [hrow]
      rw [if_neg (by simp [hexec]), wp_bind, resolveSource, wp_bind,
        wp_of_ok (latestVersion_eq hid)]
      simp only [hversion, hlocation, hsource, htrust, hdig, wp_bind, wp_ofExcept, wp_get]
      rw [if_neg (not_not_intro rfl), wp_bind, wp_of_ok (getCapability_eq hid)]
      simp only [hrow, wp_pure]
      rw [if_neg (by simp [hexec]), assertManifestAdapterExecutable, wp_bind,
        wp_of_ok (latestVersion_eq hid)]
      simp only [hversion, hmanifest, hname, hhealth, wp_bind, wp_ofExcept, wp_get]
    obtain ⟨u, w', h⟩ := Returns.exists_ok hreturns
    exact ⟨w', h⟩

theorem Passable.unique {w : World} {id : String} {d d' : SqlVal} {s t : Source}
    (h : Passable H w id d s) (h' : Passable H w id d' t) : d = d' ∧ s = t := by
  obtain ⟨-, ⟨row, hrow, -, rfl⟩, version, location, -, -, hversion, hlocation, hsource, -⟩ := h
  obtain ⟨-, ⟨row', hrow', -, rfl⟩, version', location', -, -, hversion', hlocation',
    hsource', -⟩ := h'
  rw [hrow] at hrow'
  rw [hversion] at hversion'
  cases hrow'
  cases hversion'
  rw [hlocation] at hlocation'
  cases hlocation'
  rw [hsource] at hsource'
  exact ⟨rfl, Option.some.inj hsource'⟩

/-! ### Changes of a source -/

/-- An inspection that returns reports the digest. -/
theorem hasDigest_of_inspect {t : Source} {trust : TrustReport}
    (h : inspectSource H t = .ok trust) : t.HasDigest H trust.digest := by
  unfold inspectSource at h
  obtain ⟨⟨d, count, bytes⟩, hd, h⟩ := except_bind_eq_ok.1 h
  refine ⟨count, bytes, ?_⟩
  rw [hd]
  by_cases hf : t.isFile = true
  · simp only [hf] at h
    cases h
    rfl
  · cases hl : t.license with
    | ok l =>
      simp only [hf, hl] at h
      cases h
      rfl
    | error x =>
      simp only [hf, hl] at h
      cases h

/-- The inspection reports the digest, if the license of the source can be read. -/
theorem inspectSource_eq_ok {t : Source} (hlicense : t.isFile = true ∨ t.license.isOk = true)
    {d : String} : t.HasDigest H d ↔ ∃ trust, inspectSource H t = .ok trust ∧ trust.digest = d := by
  constructor
  · rintro ⟨count, bytes, h⟩
    unfold inspectSource
    rw [h]
    by_cases hf : t.isFile = true
    · exact ⟨⟨d, count, bytes, none⟩, by simp only [hf]; rfl, rfl⟩
    · cases hl : t.license with
      | ok l => exact ⟨⟨d, count, bytes, l⟩, by simp only [hf]; rfl, rfl⟩
      | error x =>
        rw [hl] at hlicense
        exact absurd hlicense (by simp [hf, Except.isOk, Except.toBool])
  · rintro ⟨trust, h, rfl⟩
    exact hasDigest_of_inspect h

/-- The digest tells the two sources apart, unless they are the same: some file that it covers has
changed, or none at all. -/
def Noticed (H : Host) (s t : Source) : Prop :=
  s.Encodable H → t.Encodable H → SameCovered s t → SameFiles s t

/-- A directory with one file of one byte. -/
def oneFile (rel : String) (b : UInt8) (h : '\x00' ∉ rel.toList) : Source where
  isFile := false
  files := [{ rel, data := [b], noNul := h }]
  nodup := List.nodup_singleton rel
  single h := by cases h

/-- The digest of a source that can be hashed. -/
def Source.digestUnder (H : Host) (s : Source) : String := "sha256:" ++ hex (H.digest (s.fed H))

/-- A project in which an approved capability lies. -/
def approvedWorld (digest : String) (source : Source) : World :=
  { emptyWorld with
    outside := { emptyWorld.outside with
      source := fun path => if path = "tool" then some source else none
      adapter := fun name => if name = "cli" then some { healthy := true, enforced := true }
        else none }
    db := {
      capabilities := [{
        id := .text "tool", name := .text "tool", type := .text "cli"
        lifecycle := .text "approved", currentDigest := .text digest
        createdAt := .text "", updatedAt := .text "" }]
      capabilityVersions := [{
        id := .text "cv", capabilityId := .text "tool", version := .text "1"
        digest := .text digest
        manifest := .json (.mkObj [("entrypoint", .mkObj [("adapter", .str "cli")])])
        sourceKind := .text "local-directory", sourceLocation := .text "tool"
        license := .null, adapter := .text "cli", compatibility := .null
        lifecycle := .text "approved", createdAt := .text "" }] } }

theorem passable_approvedWorld (digest : String) (source : Source) :
    Passable (Host.plain id) (approvedWorld digest source) "tool" (.text digest) source := by
  have hexec : isExecutable (.text "approved") = true := by decide
  have hname : manifestAdapter "tool" (.mkObj [("entrypoint", .mkObj [("adapter", .str "cli")])]) =
      .ok "cli" := by decide +kernel
  have hrel : relativize (Host.plain id) "tool" = "tool" := by decide +kernel
  refine ⟨rfl, ⟨_, rfl, hexec, rfl⟩, _, "tool", _, "cli", rfl, rfl, ?_, rfl, hname, ?_⟩
  · rw [hrel]
    rfl
  · simp [approvedWorld, checkHealth]

theorem covered_oneFile {rel : String} (b : UInt8) (h : '\x00' ∉ rel.toList) :
    (oneFile rel b h).covered =
      if textExtensions.contains (suffix rel) then [(rel, [b])] else [] := by
  by_cases hext : textExtensions.contains (suffix rel) = true
  · have hmem : suffix rel ∈ textExtensions := by simpa using hext
    simp [Source.covered, Source.iterTextFiles, oneFile, hmem, SourceFile.content]
  · have hmem : suffix rel ∉ textExtensions := by simpa using hext
    simp [Source.covered, Source.iterTextFiles, oneFile, hmem]

theorem sameFiles_oneFile {rel : String} {b c : UInt8} {h : '\x00' ∉ rel.toList}
    (hsame : SameFiles (oneFile rel b h) (oneFile rel c h)) : b = c := by
  have hmem := (hsame (rel, [b])).1 (by simp [Source.contents, oneFile, SourceFile.content])
  simpa [Source.contents, oneFile, SourceFile.content] using hmem

end Shiroe
