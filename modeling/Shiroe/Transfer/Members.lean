import Shiroe.Transfer.Manifest

/-!
# The members of an archive and the paths they are read for

The duplicate check of `_read_bundle` compares the names of the members as they are written, and
the payloads are kept under the normalised paths.  Two names that differ in empty parts and dots
only pass the check, and the bytes of the first member are lost.

* `readsOff` : what an archive that is accepted has been read as, member by member;
* `readBundle_archive` : an archive whose members agree with its manifest is accepted;
* `archive_faithful_iff` : exactly when every path has one member and every member is extracted.
-/

namespace Shiroe

open Act

/-- The path that the bytes of a member are kept under. -/
def Member.target (m : Member) : TreePath := posixParts (removePrefix m.name "files/")

/-- The bytes of a member that can be read. -/
def Member.data (m : Member) : List UInt8 :=
  match m.read with
  | .ok data => data
  | .error _ => []

/-- The members that carry an artifact. -/
def payloadMembers (members : List Member) : List Member :=
  members.filter (·.name ≠ "manifest.json")

/-- The members stand for the paths of the manifest one for one, and whenever the archive is
extracted, every member's bytes lie at its path afterwards. -/
structure FaithfulArchive (H : Host) (members : List Member) (m : ArtifactBundleManifest) :
    Prop where
  bijective : Set.BijOn (fun i : Fin (payloadMembers members).length =>
    ((payloadMembers members).get i).target) Set.univ {p | p ∈ m.files.map (·.path)}
  kept : ∀ (x : Extraction) (entry : TreePath → Option Entry), x.bundle = .ok members →
    x.Fresh entry → ∀ m' d', x.extractArtifactBundle H { entry } = .ok m' d' →
      ∀ a ∈ payloadMembers members, d'.entry (x.dest ++ a.target) = some (.file a.data)

/-! ### Names -/

/-- Below `files/` the parts of a name are those of the rest. -/
theorem posixParts_of_startsWith {name : String} (h : startsWith name "files/" = true) :
    posixParts name = "files" :: posixParts (removePrefix name "files/") := by
  obtain ⟨rest, hrest⟩ := List.isPrefixOf_iff_prefix.1 h
  have hname : name.toList = "files".toList ++ '/' :: rest := by
    rw [← hrest]
    rfl
  have hremoved : (removePrefix name "files/").toList = rest := by
    rw [removePrefix, String.toList_ofList, ← hrest]
    exact List.drop_left
  rw [posixParts, posixParts, hremoved, hname,
    List.splitOn_append_cons_self_of_not_mem (by decide : '/' ∉ "files".toList)]
  rfl

theorem posixParts_manifest : posixParts "manifest.json" = ["manifest.json"] := by
  decide

/-! ### Reading the members -/

variable {members : List Member} {c : BundleContent}

/-- What the loop of `_read_bundle` has made of the members. -/
structure ReadsOff (members : List Member) (c : BundleContent) : Prop where
  names : c.names = (members.map (·.name)).reverse
  nodup : (members.map (·.name)).Nodup
  payloads : c.payloads = ((payloadMembers members).map fun a => (a.target, a.data)).reverse
  below : ∀ a ∈ payloadMembers members, startsWith a.name "files/" = true

theorem ReadsOff.member {c' : BundleContent} {a : Member} (h : ReadsOff members c)
    (hok : readBundleMember c a = .ok c') : ReadsOff (members ++ [a]) c' := by
  unfold readBundleMember at hok
  dsimp only at hok
  have hnodup : ∀ hnew : a.name ∉ c.names, ((members ++ [a]).map (·.name)).Nodup := by
    intro hnew
    rw [h.names, List.mem_reverse] at hnew
    rw [List.map_append, List.nodup_append]
    exact ⟨h.nodup, List.nodup_singleton _, fun x hx y hy heq => hnew (by simp_all)⟩
  by_cases hseen : a.name ∈ c.names
  · rw [if_pos hseen] at hok
    cases hok
  rw [if_neg hseen] at hok
  by_cases hman : a.name = "manifest.json"
  · rw [if_pos hman] at hok
    have hsame : payloadMembers (members ++ [a]) = payloadMembers members := by
      simp [payloadMembers, hman]
    split_ifs at hok
    obtain ⟨data, -, hok⟩ := except_bind_eq_ok.1 hok
    cases hok
    exact ⟨by simp [h.names], hnodup hseen, hsame ▸ h.payloads, hsame ▸ h.below⟩
  · rw [if_neg hman] at hok
    have hmore : payloadMembers (members ++ [a]) = payloadMembers members ++ [a] := by
      simp [payloadMembers, hman]
    split_ifs at hok with hbelow hkind
    obtain ⟨rel, hrel, hok⟩ := except_bind_eq_ok.1 hok
    obtain ⟨data, hdata, hok⟩ := except_bind_eq_ok.1 hok
    cases hok
    have htarget : rel = a.target := by
      unfold validateRelativePath at hrel
      split_ifs at hrel
      cases hrel
      rfl
    have hbytes : a.data = data := by rw [Member.data, hdata]
    refine ⟨by simp [h.names], hnodup hseen, ?_, ?_⟩
    · rw [hmore, List.map_append, List.reverse_append, htarget, ← hbytes, h.payloads]
      rfl
    · rw [hmore]
      exact List.forall_mem_append.2 ⟨h.below, by simpa using hbelow⟩

/-- Whatever the loop accepts it has read off member by member. -/
theorem readsOff (hok : members.foldlM readBundleMember {} = .ok c) : ReadsOff members c := by
  suffices hall : ∀ (rest done : List Member) (c₀ : BundleContent), ReadsOff done c₀ →
      rest.foldlM readBundleMember c₀ = .ok c → ReadsOff (done ++ rest) c from
    hall members [] {} ⟨rfl, List.nodup_nil, rfl, by simp [payloadMembers]⟩ hok
  intro rest
  induction rest with
  | nil =>
    intro done c₀ h hok
    cases hok
    rwa [List.append_nil]
  | cons a rest ih =>
    intro done c₀ h hok
    rw [List.foldlM_cons] at hok
    obtain ⟨c₁, ha, hok⟩ := except_bind_eq_ok.1 hok
    rw [List.append_cons]
    exact ih (done ++ [a]) c₁ (h.member ha) hok

variable {H : Host} {m : ArtifactBundleManifest} {payloads : List (TreePath × List UInt8)}

/-- What an accepted archive has been read as. -/
theorem readsOff_of_readBundle (h : readBundle H (.ok members) = .ok (m, payloads)) :
    (∃ c, ReadsOff members c ∧ c.payloads = payloads) ∧
      ∀ p, p ∈ m.files.map (·.path) ↔ p ∈ (payloadMembers members).map (·.target) := by
  obtain ⟨_, hmembers, h⟩ := except_bind_eq_ok.1 h
  cases hmembers
  obtain ⟨c, hc, h⟩ := except_bind_eq_ok.1 h
  dsimp only at h
  split at h
  · cases h
  · obtain ⟨manifest, -, h⟩ := except_bind_eq_ok.1 h
    split_ifs at h with hsame
    cases h
    have hoff := readsOff hc
    refine ⟨⟨c, hoff, rfl⟩, fun p => ?_⟩
    have hkeys : p ∈ c.payloads.map (·.1) ↔ p ∈ (payloadMembers members).map (·.target) := by
      rw [hoff.payloads]
      simp
    rw [← hkeys]
    exact ⟨hsame.2 p, hsame.1 p⟩

theorem mem_payloadMembers {a : Member} :
    a ∈ payloadMembers members ↔ a ∈ members ∧ a.name ≠ "manifest.json" := by
  simp [payloadMembers]

/-- The parts of the names are pairwise different as the paths are. -/
theorem ReadsOff.nodup_parts_iff (h : ReadsOff members c) :
    (members.map fun a => posixParts a.name).Nodup ↔
      ((payloadMembers members).map (·.target)).Nodup := by
  have hparts : ∀ a ∈ payloadMembers members, posixParts a.name = "files" :: a.target :=
    fun a ha => posixParts_of_startsWith (h.below a ha)
  constructor
  · intro hall
    have hsub : ((payloadMembers members).map fun a => posixParts a.name).Nodup :=
      hall.sublist (List.filter_sublist.map _)
    rw [List.map_congr_left hparts] at hsub
    exact List.Nodup.of_map (List.cons "files") (by rwa [List.map_map])
  · intro hall
    refine List.Nodup.map_on (fun a ha b hb heq => ?_) (List.Nodup.of_map _ h.nodup)
    have hmixed : ∀ {a b : Member}, a ∈ members → a.name ≠ "manifest.json" →
        b.name = "manifest.json" → posixParts a.name ≠ posixParts b.name := by
      intro a b ha hna hb
      rw [hparts a (mem_payloadMembers.2 ⟨ha, hna⟩), hb, posixParts_manifest]
      simp
    by_cases hna : a.name = "manifest.json"
    · by_cases hnb : b.name = "manifest.json"
      · exact List.inj_on_of_nodup_map h.nodup ha hb (hna.trans hnb.symm)
      · exact absurd heq.symm (hmixed hb hnb hna)
    · by_cases hnb : b.name = "manifest.json"
      · exact absurd heq (hmixed ha hna hnb)
      · have ha := mem_payloadMembers.2 ⟨ha, hna⟩
        have hb := mem_payloadMembers.2 ⟨hb, hnb⟩
        rw [hparts a ha, hparts b hb, List.cons_inj_right] at heq
        exact List.inj_on_of_nodup_map hall ha hb heq

/-! ### Extracting them -/

theorem lookup_of_nodup {files : List (TreePath × List UInt8)} {f : TreePath × List UInt8}
    (hnodup : (files.map Prod.fst).Nodup) (hf : f ∈ files) : files.lookup f.1 = some f.2 := by
  induction files with
  | nil => cases hf
  | cons g files ih =>
    obtain ⟨hg, hnodup⟩ := List.nodup_cons.1 hnodup
    rcases List.mem_cons.1 hf with rfl | hf
    · exact List.lookup_cons_self
    · have hne : (f.1 == g.1) = false := by
        rw [beq_eq_false_iff_ne]
        exact fun heq => hg (heq ▸ List.mem_map_of_mem hf)
      rw [List.lookup_cons, hne]
      exact ih hnodup hf

/-- The file that is delivered for a path of the manifest. -/
theorem lookup_deliver {files : List FileEntry} (hnamed : WellNamed files) {p : TreePath}
    (hp : p ∈ files.map (·.path)) :
    (deliver payloads files).lookup p = some ((payloads.lookup p).getD []) := by
  obtain ⟨e, he, rfl⟩ := List.mem_map.1 hp
  refine lookup_of_nodup (f := (e.path, (payloads.lookup e.path).getD [])) ?_
    (List.mem_map_of_mem (f := fun e => (e.path, (payloads.lookup e.path).getD [])) he)
  rw [deliver, List.map_map]
  exact hnamed.nodup

/-- A call that returns has read the bundle, and leaves its tree at the destination. -/
theorem extract_returns {x : Extraction} {entry : TreePath → Option Entry}
    (hread : readBundle H x.bundle = .ok (m, payloads)) (fresh : x.Fresh entry)
    {m' : ArtifactBundleManifest} {d' : Disk}
    (hx : x.extractArtifactBundle H { entry } = .ok m' d') :
    m' = m ∧ d'.below x.dest = bundleTree (deliver payloads m.files) := by
  have hat : Extraction.At x False nothing nothing (Disk.below { entry } x.dest) { entry } :=
    ⟨funext fun s => (fresh s).1, funext fun s => (fresh s).2, rfl, by simp⟩
  by_cases hreads : x.Reads H m payloads
  · have hspec := Extraction.extract_spec hreads hat
    rw [Act.wp, hx] at hspec
    obtain ⟨⟨rfl, -⟩, b, hd⟩ := hspec
    exact ⟨rfl, hd.dest⟩
  · have hnone : ∀ m' payloads', ¬ x.Reads H m' payloads' := by
      intro m' payloads' hr
      obtain ⟨rfl, rfl⟩ : m' = m ∧ payloads' = payloads := by
        have heq := hr.2.symm.trans hread
        cases heq
        exact ⟨rfl, rfl⟩
      exact hreads hr
    have hspec := Extraction.extract_of_not_reads hnone hat
    rw [Act.wp, hx] at hspec
    exact hspec.elim

/-! ### One member for each path -/

/-- **Exactly when the members of an accepted archive stand for the paths one for one** and none of
them is lost when it is extracted: no two names have the same parts, that is, differ in empty parts
and dots only. -/
theorem archive_faithful_iff (hread : readBundle H (.ok members) = .ok (m, payloads)) :
    FaithfulArchive H members m ↔ (members.map fun a => posixParts a.name).Nodup := by
  obtain ⟨⟨c, hoff, rfl⟩, hpaths⟩ := readsOff_of_readBundle hread
  rw [hoff.nodup_parts_iff]
  have hinj : ((payloadMembers members).map (·.target)).Nodup ↔ Set.InjOn
      (fun i : Fin (payloadMembers members).length => ((payloadMembers members).get i).target)
      Set.univ := by
    rw [Set.injOn_univ, List.Nodup, List.pairwise_map, List.pairwise_iff_get]
    constructor
    · intro h i j heq
      rcases lt_trichotomy i j with hlt | rfl | hlt
      · exact absurd heq (h i j hlt)
      · rfl
      · exact absurd heq.symm (h j i hlt)
    · exact fun h i j hlt heq => hlt.ne (h heq)
  constructor
  · exact fun h => hinj.2 h.bijective.injOn
  · intro hnodup
    refine ⟨⟨fun i _ => ?_, hinj.1 hnodup, fun p hp => ?_⟩, ?_⟩
    · exact (hpaths _).2 (List.mem_map_of_mem (List.get_mem _ i))
    · obtain ⟨a, ha, rfl⟩ := List.mem_map.1 ((hpaths p).1 hp)
      obtain ⟨i, rfl⟩ := List.mem_iff_get.1 ha
      exact ⟨i, trivial, rfl⟩
    · intro x entry hbundle fresh m' d' hx a ha
      obtain ⟨-, htree⟩ := extract_returns (hbundle ▸ hread) fresh hx
      have hpath := (hpaths a.target).2 (List.mem_map_of_mem ha)
      have hkeys : (c.payloads.map Prod.fst).Nodup := by
        rw [hoff.payloads, List.map_reverse, List.map_map, List.nodup_reverse]
        exact hnodup
      have hlook : c.payloads.lookup a.target = some a.data := by
        refine lookup_of_nodup (f := (a.target, a.data)) hkeys ?_
        rw [hoff.payloads, List.mem_reverse]
        exact List.mem_map_of_mem (f := fun a => (a.target, a.data)) ha
      change d'.below x.dest a.target = _
      rw [htree, bundleTree, lookup_deliver (wellNamed_of_readBundle hread) hpath, hlook]
      rfl

/-! ### Archives that are accepted -/

/-- The member is read as a payload. -/
structure Member.Takes (a : Member) : Prop where
  below : startsWith a.name "files/" = true
  kind : a.kind = .file
  read : a.read = .ok a.data
  valid : validateRelativePath (removePrefix a.name "files/") = .ok a.target

/-- Below `files/` nothing is the manifest. -/
theorem Member.Takes.ne_manifest {a : Member} (h : a.Takes) : a.name ≠ "manifest.json" := by
  intro heq
  have hbelow := h.below
  rw [heq] at hbelow
  exact absurd hbelow (by decide)

theorem Member.Takes.readBundleMember {a : Member} (h : a.Takes) (hnew : a.name ∉ c.names) :
    readBundleMember c a = .ok { c with
      names := a.name :: c.names, payloads := (a.target, a.data) :: c.payloads } := by
  unfold Shiroe.readBundleMember
  dsimp only
  rw [if_neg hnew, if_neg h.ne_manifest, h.below, if_neg (by decide), if_neg (not_not_intro h.kind)]
  exact except_bind_eq_ok.2 ⟨_, h.valid, except_bind_eq_ok.2 ⟨_, h.read, rfl⟩⟩

theorem readMembers (h : ∀ a ∈ members, a.Takes)
    (hnodup : (members.map (·.name) ++ c.names).Nodup) :
    members.foldlM readBundleMember c = .ok { c with
      names := (members.map (·.name)).reverse ++ c.names
      payloads := (members.map fun a => (a.target, a.data)).reverse ++ c.payloads } := by
  induction members generalizing c with
  | nil => rfl
  | cons a members ih =>
    rw [List.map_cons, List.cons_append, List.nodup_cons, List.mem_append, not_or] at hnodup
    rw [List.foldlM_cons]
    refine except_bind_eq_ok.2 ⟨_, (h a List.mem_cons_self).readBundleMember hnodup.1.2, ?_⟩
    rw [ih (fun b hb => h b (List.mem_cons_of_mem _ hb))]
    · simp
    · refine List.nodup_middle.2 (List.nodup_cons.2 ⟨?_, hnodup.2⟩)
      rw [List.mem_append, not_or]
      exact hnodup.1

/-- A regular file in an archive. -/
def fileMember (name : String) (data : List UInt8) : Member where
  name := name
  kind := .file
  content := .ok (some data)

/-- The member that holds the manifest. -/
def manifestMember (files : List FileEntry) : Member where
  name := "manifest.json"
  kind := .file
  content := .ok (some (utf8 ((manifestBody files).dumps false)))

/-- **An archive whose members agree with its manifest is accepted.** -/
theorem readBundle_archive {files : List FileEntry} (hfiles : ∀ e ∈ files, e.Written)
    (hnodup : (files.map (·.path)).Nodup)
    (henc : H.encodes (String.ofList ((manifestBody files).dumps false)) = true)
    (h : ∀ a ∈ members, a.Takes) (hnames : (members.map (·.name)).Nodup)
    (hsame : ∀ p, p ∈ files.map (·.path) ↔ p ∈ members.map (·.target)) :
    readBundle H (.ok (manifestMember files :: members)) =
      .ok (manifestOf H files, (members.map fun a => (a.target, a.data)).reverse) := by
  have hread : (manifestMember files :: members).foldlM readBundleMember {} = .ok {
      names := (members.map (·.name)).reverse ++ ["manifest.json"]
      payloads := (members.map fun a => (a.target, a.data)).reverse ++ []
      manifest := some (utf8 ((manifestBody files).dumps false)) } := by
    rw [List.foldlM_cons]
    refine except_bind_eq_ok.2 ⟨{
      names := ["manifest.json"]
      manifest := some (utf8 ((manifestBody files).dumps false)) }, rfl, ?_⟩
    refine readMembers h (List.nodup_append.2 ⟨hnames, List.nodup_singleton _, ?_⟩)
    intro n hn m hm heq
    obtain ⟨a, ha, rfl⟩ := List.mem_map.1 hn
    exact (h a ha).ne_manifest (heq.trans (List.mem_singleton.1 hm))
  have hkeys : ∀ p, p ∈ ((members.map fun a : Member => (a.target, a.data)).reverse ++ []).map
      Prod.fst ↔ p ∈ files.map (·.path) := by
    intro p
    rw [hsame]
    simp
  refine except_bind_eq_ok.2 ⟨_, rfl, except_bind_eq_ok.2 ⟨_, hread, ?_⟩⟩
  refine except_bind_eq_ok.2 ⟨_, manifestFromBytes_manifestBody hfiles hnodup henc, ?_⟩
  dsimp only
  rw [if_pos ⟨fun p hp => (hkeys p).1 hp, fun p hp => (hkeys p).2 hp⟩, List.append_nil]

/-! ### Two names for one path -/

theorem takes_fileMember {name : String} (data : List UInt8)
    (hbelow : startsWith name "files/" = true)
    (hvalid : validateRelativePath (removePrefix name "files/") =
      .ok (posixParts (removePrefix name "files/"))) : (fileMember name data).Takes :=
  ⟨hbelow, rfl, rfl, hvalid⟩

theorem target_a (data : List UInt8) : (fileMember "files/a" data).target = ["a"] := by
  change posixParts (removePrefix "files/a" "files/") = ["a"]
  decide

theorem target_dot_a (data : List UInt8) : (fileMember "files/./a" data).target = ["a"] := by
  change posixParts (removePrefix "files/./a" "files/") = ["a"]
  decide

/-- The entry of an artifact `a` that holds the byte 2. -/
def entryOfA : FileEntry where
  path := ["a"]
  sha256 := digestBytes (Host.quick id) [2]
  size := .int 1

theorem entryOfA_written : ∀ e ∈ [entryOfA], e.Written := by
  intro e he
  obtain rfl := List.mem_singleton.1 he
  refine ⟨by simp [entryOfA], fun n hn => ?_, digestBytes_form _, 1, rfl, by decide⟩
  obtain rfl := List.mem_singleton.1 hn
  exact ⟨by decide, by decide, by decide, by decide⟩

/-- **Two members for one path**: both names are accepted, and the bytes of `files/a` are kept under
the same path as those of `files/./a`, which come last. -/
theorem archive_loses_member :
    let members :=
      [manifestMember [entryOfA], fileMember "files/a" [1], fileMember "files/./a" [2]]
    readBundle (Host.quick id) (.ok members) =
        .ok (manifestOf (Host.quick id) [entryOfA], [(["a"], [2]), (["a"], [1])]) ∧
      ¬ FaithfulArchive (Host.quick id) members (manifestOf (Host.quick id) [entryOfA]) := by
  refine ⟨?_, fun h => ?_⟩
  · refine readBundle_archive entryOfA_written (by simp) rfl ?_ (by decide)
      (by simp [entryOfA, target_a, target_dot_a])
    refine List.forall_mem_cons.2 ⟨?_, List.forall_mem_singleton.2 ?_⟩
    · exact takes_fileMember [1] (by decide) (by decide)
    · exact takes_fileMember [2] (by decide) (by decide)
  · have hinj := Set.injOn_univ.1 h.bijective.injOn
    have hsame := @hinj ⟨0, by decide⟩ ⟨1, by decide⟩ (by decide)
    cases hsame

/-- The entry of an artifact `b/c` that holds the byte 1. -/
def entryOfBC : FileEntry where
  path := ["b", "c"]
  sha256 := digestBytes (Host.quick id) [1]
  size := .int 1

theorem entryOfBC_written : ∀ e ∈ [entryOfA, entryOfBC], e.Written := by
  refine List.forall_mem_cons.2 ⟨entryOfA_written _ (List.mem_singleton_self _),
    List.forall_mem_singleton.2 ⟨by simp [entryOfBC], fun n hn => ?_, digestBytes_form _, 1, rfl,
      by decide⟩⟩
  change n ∈ ["b", "c"] at hn
  revert n
  refine List.forall_mem_cons.2 ⟨?_, List.forall_mem_singleton.2 ?_⟩ <;>
    exact ⟨by decide, by decide, by decide, by decide⟩

theorem target_bc (data : List UInt8) : (fileMember "files/b/./c" data).target = ["b", "c"] := by
  change posixParts (removePrefix "files/b/./c" "files/") = ["b", "c"]
  decide

/-- Two members with different paths, one of them written with a dot: nothing is lost, although the
members come in another order than the entries of the manifest. -/
theorem archive_faithful_two :
    FaithfulArchive (Host.quick id)
      [manifestMember [entryOfA, entryOfBC], fileMember "files/b/./c" [1], fileMember "files/a" [2]]
      (manifestOf (Host.quick id) [entryOfA, entryOfBC]) := by
  have hread : readBundle (Host.quick id) (.ok [manifestMember [entryOfA, entryOfBC],
      fileMember "files/b/./c" [1], fileMember "files/a" [2]]) =
        .ok (manifestOf (Host.quick id) [entryOfA, entryOfBC],
          [(["a"], [2]), (["b", "c"], [1])]) := by
    refine readBundle_archive entryOfBC_written (by decide) rfl ?_ (by decide) fun p => ?_
    · refine List.forall_mem_cons.2 ⟨?_, List.forall_mem_singleton.2 ?_⟩
      · exact takes_fileMember [1] (by decide) (by decide)
      · exact takes_fileMember [2] (by decide) (by decide)
    · simp [entryOfA, entryOfBC, target_a, target_bc, or_comm]
  exact (archive_faithful_iff hread).2 (by decide)

end Shiroe
