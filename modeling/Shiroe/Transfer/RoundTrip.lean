import Shiroe.Transfer.Members

/-!
# A bundle is extracted to the tree it was made from

`create_artifact_bundle` and `extract_artifact_bundle` one after the other.  What the one writes the
other reads: the manifest is the canonical text of its body, the names below `files/` are normalised
paths, and a payload passes the checks against its own entry.

* `sourceEntries_of_holds` : the entries of a directory tree, in the order of the paths;
* `readBundle_created` : what is read of a bundle that was made from one;
* `round_trip_iff` : exactly when its extraction yields the tree again.
-/

namespace Shiroe

open Act

/-! ### Creating a bundle -/

/-- What lies at a path that `source.rglob("*")` lists. -/
inductive SourceItem where
  /-- A regular file: `st_nlink`, and what `read_bytes` gives. -/
  | file (links : ℕ) (content : Except Exc (List UInt8))
  | symlink
  | folder
  | other

/-- `p.is_file() or p.is_symlink()`. -/
def SourceItem.listed : SourceItem → Bool
  | .file _ _ => true
  | .symlink => true
  | _ => false

/-- The directory that a bundle is made from. -/
structure SourceDir where
  isDir : Bool := true
  /-- The paths below it, relative to it, in the order they are listed. -/
  items : List (TreePath × SourceItem)

variable (H : Host)

/-- The entry of a file. -/
def fileEntry (path : TreePath) (data : List UInt8) : FileEntry where
  path := path
  sha256 := digestBytes H data
  size := .int data.length

/-- The loop body of `_source_entries`; the entries before it come last first, each with the bytes
of its file. -/
def sourceEntry (seen : List (FileEntry × List UInt8)) (item : TreePath × SourceItem) :
    Except Exc (List (FileEntry × List UInt8)) := do
  let rel ← validateRelativePath (posix item.1)
  if (seen.map (·.1.path)).contains rel then
    .error (bundleError ("duplicate artifact path " ++ posix rel))
  else
    match item.2 with
    | .symlink => .error (bundleError ("artifact path " ++ posix rel ++ " is a symlink"))
    | .file links content =>
      if 1 < links then .error (bundleError ("artifact path " ++ posix rel ++ " is a hardlink"))
      else do
        let data ← content
        return (fileEntry H rel data, data) :: seen
    | _ => .error (bundleError ("artifact path " ++ posix rel ++ " is not a regular file"))

/-- `_source_entries`. -/
def sourceEntries (source : SourceDir) : Except Exc (List (FileEntry × List UInt8)) :=
  if source.isDir = false then .error (bundleError "artifact source must be a directory")
  else do
    let paths := (source.items.filter (·.2.listed)).insertionSort fun a b => a.1 ≤ b.1
    return (← paths.foldlM (sourceEntry H) []).reverse

/-- `create_artifact_bundle`: the manifest, and the members that are written. -/
def createArtifactBundle (source : SourceDir) :
    Except Exc (ArtifactBundleManifest × List Member) := do
  let entries ← sourceEntries H source
  let files := entries.map (·.1)
  let canonical := String.ofList ((manifestBody files).dumps false)
  if H.encodes canonical = false then .error (.unicodeEncode canonical)
  else .ok (manifestOf H files,
    manifestMember files :: entries.map fun e => fileMember ("files/" ++ posix e.1.path) e.2)

/-! ### Directory trees -/

/-- A directory tree of regular files. -/
structure ArtifactTree where
  files : List (TreePath × List UInt8)
  ne_nil : ∀ f ∈ files, f.1 ≠ []
  named : ∀ f ∈ files, ∀ n ∈ f.1, IsName n
  /-- No file lies below another one, or at its path. -/
  beside : files.Pairwise fun f g => Beside f.1 g.1
  /-- `st_size` is a signed number of 64 bits. -/
  size : ∀ f ∈ files, f.2.length < 2 ^ 63

/-- The source is a directory with the tree in it, and folders besides. -/
structure SourceDir.Holds (source : SourceDir) (tree : ArtifactTree) : Prop where
  isDir : source.isDir = true
  listed : (source.items.filter (·.2.listed)).Perm
    (tree.files.map fun f => (f.1, SourceItem.file 1 (.ok f.2)))

/-- The extraction returns the digest of the manifest, and leaves the files of the tree and no
others at the destination. -/
def Extraction.Yields (x : Extraction) (entry : TreePath → Option Entry)
    (m : ArtifactBundleManifest) (tree : ArtifactTree) : Prop :=
  ∃ m' d', x.extractArtifactBundle H { entry } = .ok m' d' ∧
    m'.manifestDigest = m.manifestDigest ∧
    ∀ p data, d'.entry (x.dest ++ p) = some (.file data) ↔ (p, data) ∈ tree.files

variable {H}

theorem ArtifactTree.nodup (tree : ArtifactTree) : (tree.files.map Prod.fst).Nodup := by
  rw [List.Nodup, List.pairwise_map]
  exact tree.beside.imp fun h heq => h.1 (by simp [heq])

/-! ### The entries -/

/-- The entries of files whose paths are new. -/
theorem sourceEntry_files {files : List (TreePath × List UInt8)}
    {seen : List (FileEntry × List UInt8)} (hne : ∀ f ∈ files, f.1 ≠ [])
    (hnamed : ∀ f ∈ files, ∀ n ∈ f.1, IsName n)
    (hnodup : (seen.map (·.1.path) ++ files.map Prod.fst).Nodup) :
    (files.map fun f => (f.1, SourceItem.file 1 (.ok f.2))).foldlM (sourceEntry H) seen =
      .ok ((files.map fun f => (fileEntry H f.1 f.2, f.2)).reverse ++ seen) := by
  induction files generalizing seen with
  | nil => rfl
  | cons f files ih =>
    rw [List.map_cons, List.nodup_middle, List.nodup_cons, List.mem_append, not_or] at hnodup
    have hnew : ¬ (seen.map (·.1.path)).contains f.1 = true := by
      rw [List.contains_iff_mem]
      exact hnodup.1.1
    have hone : sourceEntry H seen (f.1, SourceItem.file 1 (.ok f.2)) =
        .ok ((fileEntry H f.1 f.2, f.2) :: seen) := by
      refine except_bind_eq_ok.2 ⟨f.1, validateRelativePath_posix (hne f List.mem_cons_self)
        (hnamed f List.mem_cons_self), ?_⟩
      dsimp only
      rw [if_neg hnew, if_neg (by decide)]
      rfl
    rw [List.map_cons, List.foldlM_cons]
    refine except_bind_eq_ok.2 ⟨_, hone, ?_⟩
    rw [ih (fun g hg => hne g (List.mem_cons_of_mem _ hg))
      (fun g hg => hnamed g (List.mem_cons_of_mem _ hg))]
    · simp
    · rw [List.map_cons, List.cons_append, List.nodup_cons, List.mem_append, not_or]
      exact hnodup

variable {source : SourceDir} {tree : ArtifactTree}

/-- **The entries of a directory tree** are those of its files, in some order. -/
theorem sourceEntries_of_holds (h : source.Holds tree) :
    ∃ files : List (TreePath × List UInt8), files.Perm tree.files ∧
      sourceEntries H source = .ok (files.map fun f => (fileEntry H f.1 f.2, f.2)) := by
  have hperm := (List.perm_insertionSort (fun a b => a.1 ≤ b.1) _).trans h.listed
  -- the sorted items come from the files in another order
  obtain ⟨files, hitems, hfiles⟩ := List.perm_comp_forall₂ hperm
    (show List.Forall₂ (fun item f => item = (f.1, SourceItem.file 1 (.ok f.2)))
      (tree.files.map fun f => (f.1, SourceItem.file 1 (.ok f.2))) tree.files by
        rw [List.forall₂_map_left_iff, List.forall₂_same]
        exact fun _ _ => rfl)
  have hsorted : ((source.items.filter (·.2.listed)).insertionSort fun a b => a.1 ≤ b.1) =
      files.map fun f => (f.1, SourceItem.file 1 (.ok f.2)) := by
    rwa [← List.forall₂_map_right_iff, List.forall₂_eq_eq_eq] at hitems
  refine ⟨files, hfiles, ?_⟩
  have hall := @sourceEntry_files H files [] (fun f hf => tree.ne_nil f (hfiles.subset hf))
    (fun f hf => tree.named f (hfiles.subset hf))
    ((hfiles.map Prod.fst).nodup_iff.2 tree.nodup)
  rw [List.append_nil] at hall
  rw [sourceEntries, h.isDir, if_neg (by decide), hsorted]
  refine except_bind_eq_ok.2 ⟨_, hall, ?_⟩
  rw [List.reverse_reverse]
  rfl

/-! ### What is read of the bundle -/

/-- The entries of the files. -/
def writtenEntries (H : Host) (files : List (TreePath × List UInt8)) : List FileEntry :=
  files.map fun f => fileEntry H f.1 f.2

/-- The members that the files are stored as. -/
def storedMembers (files : List (TreePath × List UInt8)) : List Member :=
  files.map fun f => fileMember ("files/" ++ posix f.1) f.2

/-- Every name of the tree can be written. -/
def ArtifactTree.Encodable (H : Host) (tree : ArtifactTree) : Prop :=
  ∀ f ∈ tree.files, ∀ n ∈ f.1, H.encodes n = true

theorem mem_intercalate_slash {c : Char} {l : List (List Char)}
    (h : c ∈ List.intercalate ['/'] l) : c = '/' ∨ ∃ s ∈ l, c ∈ s := by
  induction l with
  | nil => cases h
  | cons s l ih =>
    cases l with
    | nil => exact Or.inr ⟨s, List.mem_cons_self, by simpa using h⟩
    | cons t l =>
      rw [List.intercalate_cons_cons, List.mem_append, List.mem_append] at h
      rcases h with (h | h) | h
      · exact Or.inr ⟨s, List.mem_cons_self, h⟩
      · exact Or.inl (List.mem_singleton.1 h)
      · rcases ih h with h | ⟨u, hu, hc⟩
        · exact Or.inl h
        · exact Or.inr ⟨u, List.mem_cons_of_mem _ hu, hc⟩

theorem encodes_posix {path : TreePath} (h : ∀ n ∈ path, H.encodes n = true) :
    H.encodes (posix path) = true := by
  refine Host.encodes_iff.2 fun c hc => ?_
  rw [posix_toList] at hc
  rcases mem_intercalate_slash hc with rfl | ⟨s, hs, hc⟩
  · exact Host.encodes_singleton_of_ascii (by decide)
  · obtain ⟨n, hn, rfl⟩ := List.mem_map.1 hs
    exact Host.encodes_iff.1 (h n hn) c hc

theorem ascii_digestBytes (data : List UInt8) : Ascii (digestBytes H data) := by
  intro c hc
  rw [digestBytes, String.toList_append, List.mem_append] at hc
  rcases hc with hc | hc
  · exact (by decide : Ascii "sha256:") c hc
  · exact ascii_hex _ c hc

/-- The text of the manifest can be encoded if the paths can. -/
theorem encodes_manifestBody {files : List (TreePath × List UInt8)}
    (h : ∀ f ∈ files, ∀ n ∈ f.1, H.encodes n = true) :
    H.encodes (String.ofList ((manifestBody (writtenEntries H files)).dumps false)) = true := by
  refine Host.encodes_dumps fun c hc => ?_
  have hascii : ∀ {s : String}, Ascii s → c ∈ s.toList →
      H.encodes (String.singleton c) = true := fun hs hc =>
    Host.encodes_singleton_of_ascii (hs c hc)
  have hc := Json.mem_chars_mkObj hc
  simp only [Json.charsFields, Json.chars, List.mem_append, List.append_nil] at hc
  rcases hc with (hc | hc) | hc | hc
  · exact hascii (by decide) hc
  · exact hascii (s := artifactBundleSchema) (by decide) hc
  · exact hascii (by decide) hc
  · rw [Json.charsItems_map, writtenEntries, List.mem_flatMap] at hc
    obtain ⟨e, he, hc⟩ := hc
    obtain ⟨f, hf, rfl⟩ := List.mem_map.1 he
    have hc := Json.mem_chars_mkObj hc
    simp only [Json.charsFields, Json.chars, fileEntry, List.mem_append, List.append_nil] at hc
    rcases hc with (hc | hc) | (hc | hc) | hc
    · exact hascii (by decide) hc
    · exact Host.encodes_iff.1 (encodes_posix (h f hf)) c hc
    · exact hascii (by decide) hc
    · exact hascii (ascii_digestBytes _) hc
    · exact hascii (by decide) hc

theorem written_fileEntry {path : TreePath} {data : List UInt8} (hne : path ≠ [])
    (hnamed : ∀ n ∈ path, IsName n) (hsize : data.length < 2 ^ 63) :
    (fileEntry H path data).Written :=
  ⟨hne, hnamed, digestBytes_form data, data.length, rfl, hsize⟩

theorem removePrefix_append (p s : String) : removePrefix (p ++ s) p = s := by
  rw [removePrefix, String.toList_append, List.drop_left, String.ofList_toList]

theorem startsWith_append (p s : String) : startsWith (p ++ s) p = true := by
  rw [startsWith, List.isPrefixOf_iff_prefix, String.toList_append]
  exact List.prefix_append _ _

/-- The member of a file is kept under the file's path. -/
theorem target_stored {path : TreePath} (data : List UInt8) (hne : path ≠ [])
    (hnamed : ∀ n ∈ path, IsName n) :
    (fileMember ("files/" ++ posix path) data).target = path := by
  change posixParts (removePrefix ("files/" ++ posix path) "files/") = path
  rw [removePrefix_append, posixParts_posix hne hnamed]

/-- The bundle of a tree, whatever the order of its files. -/
theorem createArtifactBundle_of_holds (h : source.Holds tree) (henc : tree.Encodable H) :
    ∃ files : List (TreePath × List UInt8), files.Perm tree.files ∧
      createArtifactBundle H source = .ok (manifestOf H (writtenEntries H files),
        manifestMember (writtenEntries H files) :: storedMembers files) := by
  obtain ⟨files, hperm, hentries⟩ := sourceEntries_of_holds (H := H) h
  refine ⟨files, hperm, except_bind_eq_ok.2 ⟨_, hentries, ?_⟩⟩
  have hpaths : (files.map fun f => (fileEntry H f.1 f.2, f.2)).map (·.1) =
      writtenEntries H files := List.map_map
  have hbytes : (files.map fun f => (fileEntry H f.1 f.2, f.2)).map
      (fun e => fileMember ("files/" ++ posix e.1.path) e.2) = storedMembers files := List.map_map
  dsimp only
  rw [hpaths, hbytes, encodes_manifestBody fun f hf => henc f (hperm.subset hf),
    if_neg (by decide)]

theorem map_path_writtenEntries (files : List (TreePath × List UInt8)) :
    (writtenEntries H files).map (·.path) = files.map Prod.fst := by
  rw [writtenEntries, List.map_map]
  rfl

/-- The members of a tree's files, read off. -/
theorem storedMembers_read {files : List (TreePath × List UInt8)} (hperm : files.Perm tree.files) :
    (storedMembers files).map (fun a => (a.target, a.data)) = files := by
  rw [storedMembers, List.map_map]
  refine (List.map_congr_left fun f hf => ?_).trans files.map_id
  have hf := hperm.subset hf
  have htarget := target_stored f.2 (tree.ne_nil f hf) (tree.named f hf)
  change ((fileMember ("files/" ++ posix f.1) f.2).target, f.2) = f
  rw [htarget]

/-- **The bundle of a tree is read as it was made.** -/
theorem readBundle_created {files : List (TreePath × List UInt8)} (hperm : files.Perm tree.files)
    (henc : tree.Encodable H) :
    readBundle H (.ok (manifestMember (writtenEntries H files) :: storedMembers files)) =
      .ok (manifestOf H (writtenEntries H files), files.reverse) := by
  have hnodup : (files.map Prod.fst).Nodup := (hperm.map Prod.fst).nodup_iff.2 tree.nodup
  have htarget : (storedMembers files).map (·.target) = files.map Prod.fst := by
    conv_rhs => rw [← storedMembers_read hperm, List.map_map]
    rfl
  rw [readBundle_archive, storedMembers_read hperm]
  · intro e he
    obtain ⟨f, hf, rfl⟩ := List.mem_map.1 he
    have hf := hperm.subset hf
    exact written_fileEntry (tree.ne_nil f hf) (tree.named f hf) (tree.size f hf)
  · rwa [map_path_writtenEntries]
  · exact encodes_manifestBody fun f hf => henc f (hperm.subset hf)
  · intro a ha
    obtain ⟨f, hf, rfl⟩ := List.mem_map.1 ha
    have hf := hperm.subset hf
    refine takes_fileMember f.2 (startsWith_append _ _) ?_
    rw [removePrefix_append, posixParts_posix (tree.ne_nil f hf) (tree.named f hf)]
    exact validateRelativePath_posix (tree.ne_nil f hf) (tree.named f hf)
  · -- equal names have equal paths
    refine List.Nodup.of_map (fun name => posixParts (removePrefix name "files/")) ?_
    rw [List.map_map]
    exact htarget ▸ hnodup
  · intro p
    rw [map_path_writtenEntries, htarget]

/-! ### Extracting it -/

namespace Extraction

variable {x : Extraction}

theorem not_fails_of_none (h : x.fault = none) (c : FsCall) : ¬ x.Fails c := by
  rintro ⟨f, hf, -⟩
  rw [h] at hf
  cases hf

/-- The payloads of a tree pass their checks and have room. -/
theorem stageable_iff {files : List (TreePath × List UInt8)} (hperm : files.Perm tree.files)
    (hnone : x.fault = none) :
    x.Stageable H files.reverse (writtenEntries H files) ↔ ∀ f ∈ tree.files, x.Admits f.1 := by
  have hkeys : (files.reverse.map Prod.fst).Nodup := by
    rw [List.map_reverse, List.nodup_reverse]
    exact (hperm.map Prod.fst).nodup_iff.2 tree.nodup
  have hcheck : ∀ f ∈ files, checkPayload H files.reverse (fileEntry H f.1 f.2) = .ok f.2 := by
    intro f hf
    have hlook : files.reverse.lookup (fileEntry H f.1 f.2).path = some f.2 :=
      lookup_of_nodup hkeys (List.mem_reverse.2 hf)
    have hsize : ¬ (f.2.length : ℤ) ≠ (fileEntry H f.1 f.2).sizeInt := not_not_intro rfl
    have hdigest : ¬ digestBytes H f.2 ≠ (fileEntry H f.1 f.2).sha256 := not_not_intro rfl
    rw [checkPayload, hlook]
    dsimp only
    rw [if_neg hsize, if_neg hdigest]
  constructor
  · intro h f hf
    exact (h.1 _ (List.mem_map_of_mem (hperm.symm.subset hf))).admitted
  · intro h
    refine ⟨fun e he => ?_, ?_⟩
    · obtain ⟨f, hf, rfl⟩ := List.mem_map.1 he
      exact ⟨⟨f.2, hcheck f hf⟩, not_fails_of_none hnone _, not_fails_of_none hnone _,
        h f (hperm.subset hf)⟩
    · rw [writtenEntries, List.pairwise_map]
      exact (hperm.pairwise_iff fun h => h.symm).2 tree.beside

/-- Without faults, the renames take place where nothing or a folder lies. -/
theorem installs_iff (hnone : x.fault = none) (old : Option Entry) :
    x.Installs old ∧ ¬ x.FailsLate old ↔ old = none ∨ old = some .folder := by
  have hno := not_fails_of_none hnone
  simp only [Installs, FailsLate, hno, not_false_eq_true, implies_true, true_and, false_or]
  cases old with
  | none => simp [pathExists]
  | some e =>
    cases e with
    | link target => cases target <;> simp [pathExists]
    | _ => simp [pathExists]

/-- The call completes exactly where there is room for the tree. -/
theorem completes_iff {files : List (TreePath × List UInt8)} {d : Disk}
    (hperm : files.Perm tree.files) (hnone : x.fault = none) :
    x.Completes H d (manifestOf H (writtenEntries H files)) files.reverse ↔
      (d.entry x.dest = none ∨ d.entry x.dest = some .folder) ∧
        d.CanMake x.refuses [] x.parent ∧ x.refuses x.tmp = false ∧
        ∀ f ∈ tree.files, x.Admits f.1 := by
  rw [← installs_iff hnone, ← stageable_iff (H := H) hperm hnone]
  constructor
  · exact fun h => ⟨⟨h.installs, h.last⟩, h.makeTmp.2.1, h.makeTmp.2.2, h.stages⟩
  · rintro ⟨⟨hinst, hlast⟩, hcan, href, hstages⟩
    exact ⟨⟨not_fails_of_none hnone _, hcan, href⟩, hstages, hinst, hlast⟩

end Extraction

theorem deliver_reverse {files : List (TreePath × List UInt8)}
    (hnodup : (files.map Prod.fst).Nodup) :
    deliver files.reverse (writtenEntries H files) = files := by
  rw [deliver, writtenEntries, List.map_map]
  refine (List.map_congr_left fun f hf => ?_).trans files.map_id
  have hkeys : (files.reverse.map Prod.fst).Nodup := by
    rwa [List.map_reverse, List.nodup_reverse]
  change (f.1, (files.reverse.lookup f.1).getD []) = f
  rw [lookup_of_nodup hkeys (List.mem_reverse.2 hf)]
  rfl

theorem bundleTree_eq_file_iff {files : List (TreePath × List UInt8)}
    (hnodup : (files.map Prod.fst).Nodup) (p : TreePath) (data : List UInt8) :
    bundleTree files p = some (.file data) ↔ (p, data) ∈ files := by
  constructor
  · intro h
    cases hlook : files.lookup p with
    | none =>
      rw [bundleTree, hlook] at h
      dsimp only at h
      split_ifs at h
      cases h
    | some content =>
      rw [bundleTree, hlook] at h
      cases h
      obtain ⟨before, after, rfl, -⟩ := List.lookup_eq_some_iff.1 hlook
      exact List.mem_append_right _ List.mem_cons_self
  · intro h
    rw [bundleTree, lookup_of_nodup hnodup h]

/-- When the bundle of a tree is extracted to it. -/
theorem yields_iff {files : List (TreePath × List UInt8)} {x : Extraction}
    {entry : TreePath → Option Entry} (hperm : files.Perm tree.files) (henc : tree.Encodable H)
    (hbundle : x.bundle =
      .ok (manifestMember (writtenEntries H files) :: storedMembers files))
    (hfresh : x.Fresh entry) (hnone : x.fault = none) :
    x.Yields H entry (manifestOf H (writtenEntries H files)) tree ↔
      (entry x.dest = none ∨ entry x.dest = some .folder) ∧
        Disk.CanMake x.refuses { entry } [] x.parent ∧ x.refuses x.tmp = false ∧
        ∀ f ∈ tree.files, x.Admits f.1 := by
  have hnodup : (files.map Prod.fst).Nodup := (hperm.map Prod.fst).nodup_iff.2 tree.nodup
  have hreads : x.Reads H (manifestOf H (writtenEntries H files)) files.reverse :=
    ⟨Extraction.not_fails_of_none hnone _, hbundle ▸ readBundle_created hperm henc⟩
  have hat : Extraction.At x False nothing nothing (Disk.below { entry } x.dest) { entry } :=
    ⟨funext fun s => (hfresh s).1, funext fun s => (hfresh s).2, rfl, by simp⟩
  have hspec := Extraction.extract_spec hreads hat
  refine Iff.trans ?_ (Extraction.completes_iff (H := H) (d := { entry }) hperm hnone)
  unfold Act.wp at hspec
  constructor
  · rintro ⟨m', d', hx, -, -⟩
    rw [hx] at hspec
    exact hspec.1.2
  · intro hdone
    cases hx : x.extractArtifactBundle H { entry } with
    | error e d' =>
      rw [hx] at hspec
      exact absurd hdone hspec.1
    | ok m' d' =>
      rw [hx] at hspec
      obtain ⟨⟨rfl, -⟩, b, hd⟩ := hspec
      refine ⟨_, d', hx, rfl, fun p data => ?_⟩
      have htree : d'.below x.dest p = bundleTree files p := by
        rw [hd.dest, manifestOf, deliver_reverse hnodup]
      rw [← hperm.mem_iff, ← bundleTree_eq_file_iff hnodup, ← htree]
      rfl

/-- A tree whose only file `a` holds the byte 2. -/
def treeOfA : ArtifactTree where
  files := [(["a"], [2])]
  ne_nil := by simp
  named f hf n hn := by
    rw [List.mem_singleton.1 hf] at hn
    rw [List.mem_singleton.1 hn]
    exact ⟨by decide, by decide, by decide, by decide⟩
  beside := List.pairwise_singleton _ _
  size := by simp

/-- A directory that holds it. -/
def sourceOfA : SourceDir where
  items := [(["a"], .file 1 (.ok [2]))]

theorem sourceOfA_holds : sourceOfA.Holds treeOfA := ⟨rfl, List.Perm.refl _⟩

/-- The extraction of some members to `/srv/out`. -/
def Extraction.ofMembers (members : List Member) : Extraction :=
  { Extraction.toOut none with bundle := .ok members }

theorem Extraction.fresh_outFile (members : List Member) :
    (ofMembers members).Fresh outFile := by
  intro s
  constructor
  · change outFile ("srv" :: ".out.tmp.5f" :: s) = none
    cases s <;> rfl
  · change outFile ("srv" :: ".out.old.60" :: s) = none
    cases s <;> rfl

/-- The paths of three files, two of which lie in folders. -/
def docPaths : List TreePath := [["docs", "a"], ["docs", "img", "b"], ["c"]]

theorem isName_docPaths : ∀ p ∈ docPaths, ∀ n ∈ p, IsName n := by
  have hname : ∀ n ∈ docPaths.flatten, IsName n := by
    intro n hn
    constructor <;> revert n <;> decide
  exact fun p hp n hn => hname n (List.mem_flatten.2 ⟨p, hp, hn⟩)

/-- A tree of three files. -/
def treeOfDocs : ArtifactTree where
  files := docPaths.zip [[1], [2, 3], []]
  ne_nil := by decide
  named f hf n hn := isName_docPaths f.1 (List.of_mem_zip hf).1 n hn
  beside := by decide
  size := by decide

/-- A directory that holds it, listed in another order and with its folders. -/
def sourceOfDocs : SourceDir where
  items := [(["c"], .file 1 (.ok [])), (["docs"], .folder), (["docs", "img"], .folder),
    (["docs", "img", "b"], .file 1 (.ok [2, 3])), (["docs", "a"], .file 1 (.ok [1]))]

theorem sourceOfDocs_holds : sourceOfDocs.Holds treeOfDocs :=
  ⟨rfl, List.reverse_perm [_, _, _]⟩

end Shiroe
