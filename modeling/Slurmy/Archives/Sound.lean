import Slurmy.Archives.Machine

/-!
# What the archive cache holds

* `draft_eq`, `entry_eq`: where the files of a call are;
* `cached_eq_some`: a completed entry that is trusted has the accepted members;
* `Kept`, `Pc.Knows`, `Sound`: the invariant: no file of an entry has other content than its member;
* `sound_run`: it holds in every run.
-/

namespace Slurmy
namespace Archives

open Disk (Op)

variable {ι : Type} {S : Store ι} {i j : ι} {r r' : Name} {name : PosixPath} {m : Member} {ms : List Member}
  {t u : Tree} {p q : Path}

/-! ### Paths -/

/-- A relative path without `..`. -/
def Plain (name : PosixPath) : Prop := name.isAbsolute = false ∧ ['.', '.'] ∉ name.parts

/-- A directory in the cache. -/
def Store.base (S : Store ι) (x : Name) : Path := S.cache ++ [x]

theorem resolve_join {x : Name} (hx : x ≠ ['.', '.']) (hname : Plain name) :
    resolve ((⟨1, S.cache ++ [x]⟩ : PosixPath).join name) = S.base x ++ name.parts := by
  have hjoin : (⟨1, S.cache ++ [x]⟩ : PosixPath).join name = ⟨1, S.cache ++ [x] ++ name.parts⟩ := by
    unfold PosixPath.join
    rw [hname.1]
    rfl
  have hnormal : (⟨1, S.cache ++ [x] ++ name.parts⟩ : PosixPath).Normal := by
    intro hmem
    rcases List.mem_append.mp hmem with hmem | hmem
    · rcases List.mem_append.mp hmem with hmem | hmem
      · exact S.cache_normal hmem
      · exact hx (List.mem_singleton.mp hmem).symm
    · exact hname.2 hmem
  unfold resolve
  rw [hjoin, PosixPath.normalize_of_normal hnormal]
  rfl

theorem temporaryName_ne (r : Name) : temporaryName r ≠ ['.', '.'] := by
  intro heq
  have hsecond := (List.cons.inj (List.cons.inj heq).2).1
  exact absurd hsecond (by decide)

theorem key_ne (S : Store ι) (i : ι) {x : Name} (hx : x.head? = some '.') : S.key i ≠ x := by
  intro heq
  have hvisible := S.key_visible i
  rw [heq, hx] at hvisible
  exact absurd hvisible (by decide)

theorem draft_eq (hname : Plain name) : S.draft r name = S.base (temporaryName r) ++ name.parts :=
  resolve_join (temporaryName_ne r) hname

theorem entry_eq (hname : Plain name) : S.entry i name = S.base (S.key i) ++ name.parts :=
  resolve_join (key_ne S i rfl) hname

theorem plain_nil : Plain ⟨0, []⟩ := ⟨rfl, List.not_mem_nil⟩

theorem join_nil (p : PosixPath) : p.join ⟨0, []⟩ = p := by
  unfold PosixPath.join
  rw [if_neg (by decide), List.append_nil]

theorem resolve_temporary : resolve (S.temporary r) = S.base (temporaryName r) := by
  have heq := draft_eq (S := S) (r := r) plain_nil
  unfold Store.draft at heq
  rwa [join_nil, List.append_nil] at heq

theorem resolve_destination : resolve (S.destination i) = S.base (S.key i) := by
  have heq := entry_eq (S := S) (i := i) plain_nil
  unfold Store.entry at heq
  rwa [join_nil, List.append_nil] at heq

theorem plain_completeName : Plain completeName := ⟨rfl, by decide +kernel⟩

theorem plain_indexName : Plain indexName := ⟨rfl, by decide +kernel⟩

theorem temporaryName_injective : Function.Injective temporaryName := fun _ _ h => List.append_cancel_left h

/-- Directories in the cache are apart. -/
theorem not_prefix_of_ne {x y : Name} (hxy : x ≠ y) (p q : Path) : ¬ S.base x ++ p <+: S.base y ++ q := by
  intro h
  have hx : S.base x <+: S.base y ++ q := (List.prefix_append _ _).trans h
  have hbase : S.base x = S.base y := by
    have hprefix := List.prefix_of_prefix_length_le hx (List.prefix_append (S.base y) q) (by simp [Store.base])
    exact hprefix.eq_of_length (by simp [Store.base])
  have hlast := List.append_cancel_left hbase
  exact hxy (List.cons.inj hlast).1

/-! ### Members -/

/-- What `_safe_name` accepts. -/
structure Accepted (label : Label) (name : PosixPath) : Prop where
  plain : Plain name
  relative : name.slashes = 0
  nonempty : name.parts ≠ []
  valid : name.Valid
  suffix : ∃ suffix ∈ label.suffixes, suffix <:+ name.name.map Char.toLower

theorem accepted_of_safeName {label : Label} {value : Name} (h : safeName label value = some name) :
    Accepted label name ∧ name = PosixPath.parse value := by
  unfold safeName at h
  dsimp only at h
  split at h
  · cases h
  · next hsafe =>
    split at h
    · next hsuffix =>
      cases h
      rw [not_or, not_or] at hsafe
      obtain ⟨habsolute, hempty, hparts⟩ := hsafe
      have hrelative : (PosixPath.parse value).slashes = 0 := by
        by_contra hne
        exact habsolute (decide_eq_true hne)
      refine ⟨⟨⟨Bool.eq_false_iff.mpr habsolute, fun hmem => hparts ⟨_, hmem, ?_⟩⟩, hrelative, hempty,
        PosixPath.parse_valid value, hsuffix⟩, rfl⟩
      exact List.mem_cons_of_mem _ (List.mem_cons_of_mem _ List.mem_cons_self)
    · cases h

theorem accepted_of_mem (hms : S.members i = some ms) (hm : m ∈ ms) : Accepted (S.label i) m.name := by
  unfold Store.members at hms
  cases harchive : S.archive i with
  | zip infos =>
    rw [harchive] at hms
    cases hms
    obtain ⟨info, -, hinfo⟩ := List.mem_filterMap.mp hm
    split at hinfo
    · next hname =>
      split at hinfo
      · cases hinfo
        exact (accepted_of_safeName hname).1
      · cases hinfo
    · cases hinfo
  | tar infos =>
    rw [harchive] at hms
    cases hms
    obtain ⟨info, -, hinfo⟩ := List.mem_filterMap.mp hm
    split at hinfo
    · next hname =>
      split at hinfo
      · cases hinfo
        exact (accepted_of_safeName hname).1
      · cases hinfo
    · cases hinfo
  | unsupported =>
    rw [harchive] at hms
    cases hms

theorem Accepted.eq_of_parts {label : Label} {name' : PosixPath} (h : Accepted label name) (h' : Accepted label name')
    (hparts : name.parts = name'.parts) : name = name' := by
  have hslashes : name.slashes = name'.slashes := h.relative.trans h'.relative.symm
  cases name
  cases name'
  dsimp only at hparts hslashes
  rw [hparts, hslashes]

/-- The files that mark an entry are no members. -/
theorem Accepted.ne_marker {label : Label} (h : Accepted label name) :
    name.parts ≠ completeName.parts ∧ name.parts ≠ indexName.parts := by
  have hnone : ∀ label : Label, ∀ x ∈ [".complete".toList, ".members.json".toList], ∀ suffix ∈ label.suffixes,
      ¬ suffix <:+ x.map Char.toLower := by
    intro label
    cases label <;> decide +kernel
  have hmarker : ∀ x ∈ [".complete".toList, ".members.json".toList], name.parts ≠ [x] := by
    intro x hx hparts
    obtain ⟨suffix, hsuffix, hend⟩ := h.suffix
    have hname : name.name = x := by
      unfold PosixPath.name
      rw [hparts]
      rfl
    rw [hname] at hend
    exact hnone label x hx suffix hsuffix hend
  exact ⟨hmarker _ List.mem_cons_self, hmarker _ (List.mem_cons_of_mem _ List.mem_cons_self)⟩

/-! ### The index -/

theorem isPoint_toNat (c : Char) : JsonString.IsPoint c.toNat := by
  have hvalid := c.valid
  unfold JsonString.IsPoint
  rcases hvalid with h | ⟨h, h'⟩
  · exact .inl h
  · have hlow : 57343 < c.toNat := h
    exact .inr ⟨by omega, h'⟩

theorem isPoint_points {s : List ℕ} (hs : s ∈ ms.map fun m => points m.name) : ∀ n ∈ s, JsonString.IsPoint n := by
  obtain ⟨m, -, rfl⟩ := List.mem_map.mp hs
  intro n hn
  obtain ⟨c, -, rfl⟩ := List.mem_map.mp hn
  exact isPoint_toNat c

theorem ofNat_points (name : PosixPath) : (points name).map Char.ofNat = name.str := by
  unfold points
  rw [List.map_map]
  have hid : Char.ofNat ∘ Char.toNat = id := by
    funext c
    exact Char.ofNat_toNat c
  rw [hid, List.map_id]

/-- A trusted entry has the accepted members, and their files. -/
theorem cached_eq_some {l : List PosixPath} (hms : S.members i = some ms)
    (hindex : ∀ c, t.bytesAt (S.entry i indexName) = some c → JsonList.Torn c (indexText ms))
    (h : S.cached i t = some l) :
    l = S.listing i ms ∧ S.isComplete i t = true ∧ ∀ m ∈ ms, isFile t (S.entry i m.name) = true := by
  unfold Store.cached at h
  split at h
  · next hcomplete =>
    split at h
    · next items hitems =>
      obtain ⟨content, hcontent, hloads⟩ := Option.bind_eq_some_iff.mp hitems
      have heq := JsonList.eq_of_torn (fun s hs => isPoint_points hs) (hindex content hcontent) hloads
      subst heq
      have hnames : (ms.map fun m => points m.name).map (fun item => item.map Char.ofNat) =
          ms.map fun m => m.name.str := by
        rw [List.map_map]
        exact List.map_congr_left fun m _ => ofNat_points m.name
      dsimp only at h
      rw [hnames] at h
      split at h
      · next hfiles =>
        have hparse : ∀ m ∈ ms, PosixPath.parse m.name.str = m.name := fun m hm =>
          PosixPath.parse_str (accepted_of_mem hms hm).valid
        refine ⟨?_, hcomplete.1, fun m hm => ?_⟩
        · rw [← Option.some.inj h, List.map_map]
          refine List.map_congr_left fun m hm => ?_
          show (S.destination i).join (PosixPath.parse m.name.str) = _
          rw [hparse m hm]
        · have hfile := (hfiles.2 _ (List.mem_map_of_mem hm)).2
          rwa [hparse m hm] at hfile
      · cases h
    · cases h
  · cases h

/-! ### What a step changes -/

/-- The directories of the cache that a step works in. -/
def Store.WorksIn (S : Store ι) (i : ι) (c : Choice) : Pc → Name → Prop
  | .makeTemp, x => x = temporaryName c.name
  | .folder r _, x | .file r _ _, x | .index r, x | .discard r, x | .cleanup r, x => x = temporaryName r
  | .place r, x => x = temporaryName r ∨ x = S.key i
  | .reindex, x | .refill _, x => x = S.key i
  | _, _ => False

variable {c : Choice} {pc : Pc} {op : Op Name UInt8} {fault : Option ℕ} {ok error : Pc} {x y : Name}

theorem attempt_cases (t : Tree) (op : Op Name UInt8) (fault : Option ℕ) (ok error : Pc) :
    (∃ u, op.apply t = some u ∧ attempt t op fault ok error = (u, ok)) ∨
      ∃ u, (u = t ∨ ∃ n, u = op.torn n t) ∧ attempt t op fault ok error = (u, error) := by
  unfold attempt
  cases fault with
  | some n => exact .inr ⟨_, .inr ⟨n, rfl⟩, rfl⟩
  | none =>
    cases happly : op.apply t with
    | some u => exact .inl ⟨u, rfl, rfl⟩
    | none => exact .inr ⟨t, .inl rfl, rfl⟩

/-- Where the operation is of no concern. -/
theorem get_attempt (hop : op.Spares t p) : Dict.get (attempt t op fault ok error).1 p = Dict.get t p := by
  rcases attempt_cases t op fault ok error with ⟨u, happly, heq⟩ | ⟨u, hu, heq⟩
  · rw [heq]
    exact (Disk.get_apply happly hop.1).resolve_right hop.2
  · rw [heq]
    rcases hu with rfl | ⟨n, rfl⟩
    · rfl
    · exact (Disk.get_torn n hop.1).resolve_right hop.2

/-- An operation below one directory of the cache is of no concern for another one. -/
theorem spares_base (hxy : y ≠ x) (hsites : ∀ site ∈ op.sites, ∃ q, site = S.base y ++ q)
    (hmkdirs : ∀ d, op = .mkdirs d → ∃ q, d = S.base y ++ q) (q : Path) : op.Spares t (S.base x ++ q) := by
  constructor
  · intro site hsite hprefix
    obtain ⟨q', rfl⟩ := hsites site hsite
    exact not_prefix_of_ne hxy q' q hprefix
  · rintro ⟨d, hd, hprefix, -⟩
    obtain ⟨q', rfl⟩ := hmkdirs d hd
    exact not_prefix_of_ne hxy.symm q q' hprefix

theorem spares_write (hxy : y ≠ x) (q' : Path) (content : Bytes) (q : Path) :
    (Op.write (S.base y ++ q') content).Spares t (S.base x ++ q) := by
  refine spares_base hxy (fun site hsite => ⟨q', ?_⟩) (fun d hd => by cases hd) q
  exact List.mem_singleton.mp hsite

theorem spares_rmtree (hxy : y ≠ x) (q : Path) : (Op.rmtree (S.base y) : Op Name UInt8).Spares t (S.base x ++ q) := by
  refine spares_base hxy (fun site hsite => ⟨[], ?_⟩) (fun d hd => by cases hd) q
  rw [List.append_nil]
  exact List.mem_singleton.mp hsite

/-- The directory of a member. -/
theorem dropLast_draft (hname : Plain name) (hne : name.parts ≠ []) :
    (S.draft r name).dropLast = S.base (temporaryName r) ++ name.parts.dropLast := by
  rw [draft_eq hname, List.dropLast_append_of_ne_nil hne]

theorem get_emptied (hq : ¬ p <+: q) (t : Tree) : Dict.get (emptied t p) q = Dict.get t q := by
  unfold emptied
  split
  · rw [Disk.get_cut, if_neg hq]
  · rfl

theorem rooted_emptied (h : Disk.Rooted p t) : Disk.Rooted p (emptied t p) := by
  unfold emptied
  split
  · intro _ q hq
    rw [Disk.get_cut, if_pos hq]
  · exact h

/-- The names of the members that are still to come are accepted. -/
def Pc.Todo (label : Label) : Pc → Prop
  | .folder _ todo => ∀ m ∈ todo, Accepted label m.name
  | .file _ m todo => Accepted label m.name ∧ ∀ m' ∈ todo, Accepted label m'.name
  | _ => True

/-- A step changes nothing but in the directories it works in. -/
theorem get_advance (htodo : pc.Todo (S.label i)) (hx : ¬ S.WorksIn i c pc x) (q : Path) :
    Dict.get (S.advance i t c pc).1 (S.base x ++ q) = Dict.get t (S.base x ++ q) := by
  cases pc with
  | look => rfl
  | scan => rfl
  | check => rfl
  | arrive r => rfl
  | announce r => rfl
  | finished result => rfl
  | makeCache =>
    refine get_attempt ⟨nofun, ?_⟩
    rintro ⟨d, hd, hprefix, -⟩
    cases hd
    have hlength := hprefix.length_le
    simp only [Store.base, List.length_append, List.length_cons, List.length_nil] at hlength
    omega
  | makeTemp =>
    refine get_attempt (spares_base (y := temporaryName c.name) (Ne.symm hx) (fun site hsite => ⟨[], ?_⟩)
      (fun d hd => by cases hd) q)
    rw [List.append_nil, ← resolve_temporary]
    exact List.mem_singleton.mp hsite
  | folder r todo =>
    cases todo with
    | nil =>
      refine get_attempt ?_
      rw [draft_eq plain_completeName]
      exact spares_write (Ne.symm hx) _ _ q
    | cons m todo =>
      have hm := htodo m List.mem_cons_self
      refine get_attempt (spares_base (y := temporaryName r) (Ne.symm hx) (fun site hsite => by cases hsite)
        (fun d hd => ?_) q)
      cases hd
      exact ⟨_, dropLast_draft hm.plain hm.nonempty⟩
  | file r m todo =>
    refine get_attempt ?_
    rw [draft_eq htodo.1.plain]
    exact spares_write (Ne.symm hx) _ _ q
  | index r =>
    refine get_attempt ?_
    rw [draft_eq plain_indexName]
    exact spares_write (Ne.symm hx) _ _ q
  | discard r =>
    refine get_attempt ?_
    rw [resolve_temporary]
    exact spares_rmtree (Ne.symm hx) q
  | cleanup r =>
    refine get_attempt ?_
    rw [resolve_temporary]
    exact spares_rmtree (Ne.symm hx) q
  | place r =>
    obtain ⟨htemp, hkey⟩ := not_or.mp hx
    unfold Store.advance
    dsimp only
    split
    · next u _ happly =>
      rw [resolve_temporary, resolve_destination] at happly
      have hapart : ∀ {y}, y ≠ x → ¬ S.base y <+: S.base x ++ q := by
        intro y hyx hprefix
        exact not_prefix_of_ne hyx [] q (by rwa [List.append_nil])
      have hsites : ∀ site ∈ (Op.rename (S.base (temporaryName r)) (S.base (S.key i)) : Op Name UInt8).sites,
          ¬ site <+: S.base x ++ q := by
        intro site hsite
        rcases List.mem_cons.mp hsite with rfl | hsite
        · exact hapart (Ne.symm htemp)
        · rw [List.mem_singleton.mp hsite]
          exact hapart (Ne.symm hkey)
      rcases Disk.get_apply happly hsites with heq | ⟨d, hd, -⟩
      · rw [heq]
        exact get_emptied (hapart (Ne.symm hkey)) t
      · cases hd
    · rfl
  | reindex =>
    refine get_attempt ?_
    rw [entry_eq plain_indexName]
    exact spares_write (Ne.symm hx) _ _ q
  | refill k =>
    have hne : S.base x ++ q ≠ S.entry i indexName := by
      rw [entry_eq plain_indexName]
      intro heq
      exact not_prefix_of_ne hx q indexName.parts ⟨[], by rw [List.append_nil, heq]⟩
    unfold Store.advance
    dsimp only
    split
    · rfl
    · show Dict.get (overwrite t _ _ _) _ = _
      unfold overwrite
      split
      · exact Dict.get_put_of_ne _ _ hne
      · rfl

/-! ### What a call has unpacked -/

/-- What is known of a file: `Loose`, when others may delete it, or `Strict`. -/
structure Kind where
  holds : Option (Disk.Node UInt8) → Bytes → Prop
  file : ∀ mode content, holds (some (.file mode content)) content
  dir : ∀ content, holds none content → holds (some .dir) content

/-- The file has no other content. -/
def loose : Kind where
  holds n content := ∀ mode content', n = some (.file mode content') → content' = content
  file := by
    intro mode content mode' content' heq
    cases heq
    rfl
  dir := nofun

/-- The file has the content. -/
def strict : Kind where
  holds n content := ∃ mode, n = some (.file mode content)
  file mode _ := ⟨mode, rfl⟩
  dir := by
    rintro content ⟨mode, heq⟩
    cases heq

variable {K : Kind} {done todo : List Member}

/-- The members have been unpacked. -/
def Unpacked (K : Kind) (t : Tree) (dir : Path) (ms : List Member) : Prop :=
  ∀ m ∈ ms, K.holds (Dict.get t (dir ++ m.name.parts)) m.content

/-- The members of an archive without duplicates. -/
def Store.Members (S : Store ι) (i : ι) (ms : List Member) : Prop :=
  S.members i = some ms ∧ (ms.map Member.name).Nodup

/-- What has been established before the step. -/
def Pc.Knows (K : Kind) (S : Store ι) (i : ι) (t : Tree) : Pc → Prop
  | .look | .scan | .cleanup _ | .finished _ => True
  | .check | .makeCache | .makeTemp | .announce _ | .discard _ | .reindex | .refill _ => ∃ ms, S.Members i ms
  | .folder r todo => ∃ done, S.Members i (done ++ todo) ∧ Unpacked K t (S.base (temporaryName r)) done
  | .file r m todo => ∃ done, S.Members i (done ++ m :: todo) ∧ Unpacked K t (S.base (temporaryName r)) done
  | .index r => ∃ ms, S.Members i ms ∧ Unpacked K t (S.base (temporaryName r)) ms
  | .arrive r | .place r => ∃ ms, S.Members i ms ∧ Unpacked K t (S.base (temporaryName r)) ms ∧
      ∀ content, t.bytesAt (S.draft r indexName) = some content → content = indexText ms

theorem Store.Members.getD (h : S.Members i ms) : (S.members i).getD [] = ms := by
  rw [h.1]
  rfl

theorem Pc.Knows.accepted (h : pc.Knows K S i t) : pc.Todo (S.label i) := by
  cases pc with
  | folder r todo =>
    obtain ⟨done, hms, -⟩ := h
    exact fun m hm => accepted_of_mem hms.1 (List.mem_append_right done hm)
  | file r m todo =>
    obtain ⟨done, hms, -⟩ := h
    exact ⟨accepted_of_mem hms.1 (List.mem_append_right done List.mem_cons_self),
      fun m' hm' => accepted_of_mem hms.1 (List.mem_append_right done (List.mem_cons_of_mem m hm'))⟩
  | _ => trivial

theorem Unpacked.congr {dir dir' : Path} (h : Unpacked K t dir ms)
    (heq : ∀ q, Dict.get u (dir' ++ q) = Dict.get t (dir ++ q)) : Unpacked K u dir' ms := by
  intro m hm
  rw [heq]
  exact h m hm

/-- What is known stays true where the files of the temporary directory are as they were, or as far as it matters. -/
theorem Pc.Knows.mono (h : pc.Knows K S i t)
    (hfiles : ∀ r, pc.temp = some r → ∀ q content, K.holds (Dict.get t (S.base (temporaryName r) ++ q)) content →
      K.holds (Dict.get u (S.base (temporaryName r) ++ q)) content)
    (hbytes : ∀ r, pc.temp = some r → ∀ q content, u.bytesAt (S.base (temporaryName r) ++ q) = some content →
      t.bytesAt (S.base (temporaryName r) ++ q) = some content) :
    pc.Knows K S i u := by
  have hall : ∀ {r ms}, pc.temp = some r → Unpacked K t (S.base (temporaryName r)) ms →
      Unpacked K u (S.base (temporaryName r)) ms := fun htemp hms m hm => hfiles _ htemp _ _ (hms m hm)
  have hindex : ∀ {r ms}, pc.temp = some r →
      (∀ content, t.bytesAt (S.draft r indexName) = some content → content = indexText ms) →
      ∀ content, u.bytesAt (S.draft r indexName) = some content → content = indexText ms := by
    intro r ms htemp hindex content hcontent
    apply hindex
    rw [draft_eq plain_indexName] at hcontent ⊢
    exact hbytes r htemp _ _ hcontent
  cases pc with
  | folder r todo =>
    obtain ⟨done, hms, hdone⟩ := h
    exact ⟨done, hms, hall rfl hdone⟩
  | file r m todo =>
    obtain ⟨done, hms, hdone⟩ := h
    exact ⟨done, hms, hall rfl hdone⟩
  | index r =>
    obtain ⟨ms, hms, hdone⟩ := h
    exact ⟨ms, hms, hall rfl hdone⟩
  | arrive r =>
    obtain ⟨ms, hms, hdone, htext⟩ := h
    exact ⟨ms, hms, hall rfl hdone, hindex rfl htext⟩
  | place r =>
    obtain ⟨ms, hms, hdone, htext⟩ := h
    exact ⟨ms, hms, hall rfl hdone, hindex rfl htext⟩
  | _ => exact h

theorem Pc.Knows.congr (h : pc.Knows K S i t)
    (heq : ∀ r, pc.temp = some r → ∀ q,
      Dict.get u (S.base (temporaryName r) ++ q) = Dict.get t (S.base (temporaryName r) ++ q)) :
    pc.Knows K S i u := by
  refine h.mono (fun r htemp q content hholds => ?_) (fun r htemp q content hcontent => ?_)
  · rwa [heq r htemp]
  · rw [← hcontent]
    exact Disk.bytesAt_congr (heq r htemp q).symm

theorem loose_cut (p q : Path) {content : Bytes} (h : loose.holds (Dict.get t q) content) :
    loose.holds (Dict.get (t.cut p) q) content := by
  rw [Disk.get_cut]
  split
  · intro mode content' hnone
    cases hnone
  · exact h

theorem bytesAt_cut {p q : Path} {content : Bytes} (h : (t.cut p).bytesAt q = some content) :
    t.bytesAt q = some content := by
  obtain ⟨mode, hfile⟩ := Disk.get_of_bytesAt h
  rw [Disk.get_cut] at hfile
  split at hfile
  · cases hfile
  · exact Disk.bytesAt_of_get hfile

/-- Deletions make nothing wrong. -/
theorem Pc.Knows.cut (h : pc.Knows loose S i t) (p : Path) : pc.Knows loose S i (t.cut p) :=
  h.mono (fun _ _ _ _ hholds => loose_cut p _ hholds) fun _ _ _ _ hcontent => bytesAt_cut hcontent

theorem Unpacked.write {dir file : Path} {content : Bytes} (h : Unpacked K t dir ms)
    (happly : (Op.write file content).apply t = some u) (hne : ∀ m ∈ ms, dir ++ m.name.parts ≠ file) :
    Unpacked K u dir ms := by
  intro m hm
  rw [(Disk.write_apply happly).2.1 _ (hne m hm)]
  exact h m hm

theorem Unpacked.mkdirs {dir d : Path} (h : Unpacked K t dir ms) (happly : (Op.mkdirs d).apply t = some u) :
    Unpacked K u dir ms := by
  intro m hm
  have hholds := h m hm
  rcases Disk.mkdirs_apply happly (dir ++ m.name.parts) with heq | ⟨hnone, hdir⟩
  · rwa [heq]
  · rw [hnone] at hholds
    rw [hdir]
    exact K.dir _ hholds

/-- One member more. -/
theorem Unpacked.concat {dir : Path} (h : Unpacked K t dir done)
    (happly : (Op.write (dir ++ m.name.parts) m.content).apply t = some u)
    (hne : ∀ m' ∈ done, m'.name.parts ≠ m.name.parts) : Unpacked K u dir (done ++ [m]) := by
  intro m' hm'
  rcases List.mem_append.mp hm' with hm' | hm'
  · exact h.write happly (fun m' hm' heq => hne m' hm' (List.append_cancel_left heq)) m' hm'
  · rw [List.mem_singleton] at hm'
    subst hm'
    obtain ⟨mode, hfile⟩ := (Disk.write_apply happly).1
    rw [hfile]
    exact K.file _ _

/-- A member has another path than the members before it. -/
theorem Store.Members.parts_ne (h : S.Members i (done ++ m :: todo)) {m' : Member} (hm' : m' ∈ done) :
    m'.name.parts ≠ m.name.parts := by
  intro heq
  have hname := (accepted_of_mem h.1 (List.mem_append_left _ hm')).eq_of_parts
    (accepted_of_mem h.1 (List.mem_append_right done List.mem_cons_self)) heq
  have hnodup := h.2
  rw [List.map_append, List.map_cons] at hnodup
  exact List.disjoint_of_nodup_append hnodup (hname ▸ List.mem_map_of_mem hm') List.mem_cons_self

/-- What a step of the call itself establishes. -/
theorem Pc.Knows.advance (h : pc.Knows K S i t) : (S.advance i t c pc).2.Knows K S i (S.advance i t c pc).1 := by
  have hnone : ∀ {u : Tree}, (Pc.finished none).Knows K S i u := trivial
  cases pc with
  | look =>
    unfold Store.advance decideNext
    dsimp only
    split
    · trivial
    · split <;> trivial
  | scan =>
    unfold Store.advance decideNext
    dsimp only
    split
    · trivial
    · split
      · next ms hms =>
        split
        · trivial
        · next hnodup => exact ⟨ms, hms, by_contra fun hdup => hnodup (.inr hdup)⟩
      · trivial
  | check =>
    unfold Store.advance decideNext
    dsimp only
    split
    · trivial
    · split
      · exact h
      · split
        · exact h
        · trivial
  | makeCache =>
    unfold Store.advance
    dsimp only
    rcases attempt_cases t (.mkdirs S.cache) c.fault .makeTemp (.finished none) with ⟨u, -, heq⟩ | ⟨u, -, heq⟩
    · rw [heq]
      exact h
    · rw [heq]
      trivial
  | makeTemp =>
    obtain ⟨ms, hms⟩ := h
    unfold Store.advance
    dsimp only
    rw [hms.getD]
    rcases attempt_cases t (.mkdir (resolve (S.temporary c.name))) c.fault (.folder c.name ms) (.finished none) with
      ⟨u, -, heq⟩ | ⟨u, -, heq⟩
    · rw [heq]
      exact ⟨[], hms, nofun⟩
    · rw [heq]
      trivial
  | folder r todo =>
    obtain ⟨done, hms, hdone⟩ := h
    cases todo with
    | nil =>
      unfold Store.advance
      dsimp only
      rcases attempt_cases t (.write (S.draft r completeName) []) c.fault (.index r) (.cleanup r) with
        ⟨u, happly, heq⟩ | ⟨u, -, heq⟩
      · rw [heq]
        rw [draft_eq plain_completeName] at happly
        rw [List.append_nil] at hms
        refine ⟨done, hms, hdone.write happly fun m hm heq => ?_⟩
        exact (accepted_of_mem hms.1 hm).ne_marker.1 (List.append_cancel_left heq)
      · rw [heq]
        trivial
    | cons m todo =>
      unfold Store.advance
      dsimp only
      rcases attempt_cases t (.mkdirs (S.draft r m.name).dropLast) c.fault (.file r m todo) (.cleanup r) with
        ⟨u, happly, heq⟩ | ⟨u, -, heq⟩
      · rw [heq]
        exact ⟨done, hms, hdone.mkdirs happly⟩
      · rw [heq]
        trivial
  | file r m todo =>
    obtain ⟨done, hms, hdone⟩ := h
    unfold Store.advance
    dsimp only
    rcases attempt_cases t (.write (S.draft r m.name) m.content) c.fault (.folder r todo) (.cleanup r) with
      ⟨u, happly, heq⟩ | ⟨u, -, heq⟩
    · rw [heq]
      have hm := accepted_of_mem hms.1 (List.mem_append_right done List.mem_cons_self)
      rw [draft_eq hm.plain] at happly
      refine ⟨done ++ [m], ?_, hdone.concat happly fun m' hm' => hms.parts_ne hm'⟩
      rwa [List.append_assoc]
    · rw [heq]
      trivial
  | index r =>
    obtain ⟨ms, hms, hall⟩ := h
    unfold Store.advance
    dsimp only
    rw [hms.getD]
    rcases attempt_cases t (.write (S.draft r indexName) (indexText ms)) c.fault (.arrive r) (.cleanup r) with
      ⟨u, happly, heq⟩ | ⟨u, -, heq⟩
    · rw [heq]
      obtain ⟨mode, hfile⟩ := (Disk.write_apply happly).1
      refine ⟨ms, hms, ?_, fun content hcontent => ?_⟩
      · rw [draft_eq plain_indexName] at happly
        refine hall.write happly fun m hm heq => ?_
        exact (accepted_of_mem hms.1 hm).ne_marker.2 (List.append_cancel_left heq)
      · rw [Disk.bytesAt_of_get hfile] at hcontent
        exact (Option.some.inj hcontent).symm
    · rw [heq]
      trivial
  | arrive r =>
    obtain ⟨ms, hms, hall⟩ := h
    unfold Store.advance decideNext
    dsimp only
    split
    · trivial
    · split
      · split
        · exact ⟨ms, hms⟩
        · trivial
      · exact ⟨ms, hms, hall⟩
  | place r =>
    obtain ⟨ms, hms, hall⟩ := h
    unfold Store.advance
    dsimp only
    split
    · exact ⟨ms, hms⟩
    · trivial
  | announce r =>
    unfold Store.advance decideNext
    dsimp only
    split <;> trivial
  | discard r =>
    unfold Store.advance
    dsimp only
    rcases attempt_cases t (.rmtree (resolve (S.temporary r))) c.fault (.announce r) (.cleanup r) with
      ⟨u, -, heq⟩ | ⟨u, -, heq⟩
    · rw [heq]
      exact h
    · rw [heq]
      trivial
  | cleanup r =>
    unfold Store.advance
    dsimp only
    rcases attempt_cases t (.rmtree (resolve (S.temporary r))) c.fault (.finished none) (.finished none) with
      ⟨u, -, heq⟩ | ⟨u, -, heq⟩
    · rw [heq]
      trivial
    · rw [heq]
      trivial
  | reindex =>
    unfold Store.advance
    dsimp only
    rcases attempt_cases t (.write (S.entry i indexName) []) c.fault (.refill 0) (.finished none) with
      ⟨u, -, heq⟩ | ⟨u, -, heq⟩
    · rw [heq]
      exact h
    · rw [heq]
      trivial
  | refill k =>
    unfold Store.advance decideNext
    dsimp only
    split
    · split <;> trivial
    · split
      · trivial
      · exact h
  | finished result => trivial

/-! ### Entries -/

/-- No file of an entry has other content than its member, and its index is the index of the members, if it is one. -/
structure EntryOK (S : Store ι) (t : Tree) (i : ι) : Prop where
  rooted : Disk.Rooted (S.base (S.key i)) t
  known : Dict.get t (S.base (S.key i)) ≠ none → ∃ ms, S.Members i ms
  members : ∀ ms, S.members i = some ms → Unpacked loose t (S.base (S.key i)) ms
  index : ∀ ms content, S.members i = some ms → t.bytesAt (S.entry i indexName) = some content →
    JsonList.Torn content (indexText ms)

theorem EntryOK.congr (h : EntryOK S t i)
    (heq : ∀ q, Dict.get u (S.base (S.key i) ++ q) = Dict.get t (S.base (S.key i) ++ q)) : EntryOK S u i where
  rooted := by
    rintro hnone _ ⟨q, rfl⟩
    have hbase := heq []
    rw [List.append_nil, hnone] at hbase
    rw [heq, h.rooted hbase.symm _ ⟨q, rfl⟩]
  known := by
    have hbase := heq []
    rw [List.append_nil] at hbase
    rw [hbase]
    exact h.known
  members ms hms := (h.members ms hms).congr heq
  index ms content hms hcontent := by
    refine h.index ms content hms ?_
    rw [← hcontent, entry_eq plain_indexName]
    exact Disk.bytesAt_congr (heq _).symm

theorem EntryOK.cut (h : EntryOK S t i) (p : Path) : EntryOK S (t.cut p) i where
  rooted := by
    intro hnone q hq
    rw [Disk.get_cut] at hnone ⊢
    split at hnone
    · next hp => rw [if_pos (hp.trans hq)]
    · rw [h.rooted hnone q hq, ite_self]
  known hne := by
    rw [Disk.get_cut] at hne
    split at hne
    · exact absurd rfl hne
    · exact h.known hne
  members ms hms m hm := loose_cut p _ (h.members ms hms m hm)
  index ms content hms hcontent := h.index ms content hms (bytesAt_cut hcontent)

/-- A renamed directory. -/
theorem rename_entry (hrooted : Disk.Rooted (S.base (S.key i)) t)
    (happly : (Op.rename (resolve (S.temporary r)) (resolve (S.destination i))).apply
      (emptied t (resolve (S.destination i))) = some u) :
    (∀ q, Dict.get u (S.base (S.key i) ++ q) = Dict.get t (S.base (temporaryName r) ++ q)) ∧
      Dict.get u (S.base (S.key i)) ≠ none := by
  rw [resolve_temporary, resolve_destination] at happly
  have hne : S.key i ≠ temporaryName r := key_ne S i rfl
  have htemp : ∀ q, Dict.get (emptied t (S.base (S.key i))) (S.base (temporaryName r) ++ q) =
      Dict.get t (S.base (temporaryName r) ++ q) := by
    intro q
    refine get_emptied (fun hprefix => ?_) t
    exact not_prefix_of_ne hne [] q (by rwa [List.append_nil])
  have hmoved := (Disk.rename_apply happly (rooted_emptied hrooted)).1
  refine ⟨fun q => (hmoved q).trans (htemp q), ?_⟩
  have hsource : (Dict.get (emptied t (S.base (S.key i))) (S.base (temporaryName r))).isSome := by
    rw [Op.apply] at happly
    split at happly
    · next hcond => exact hcond.1
    · cases happly
  have hbase := hmoved []
  rw [List.append_nil, List.append_nil] at hbase
  rw [hbase]
  exact Option.isSome_iff_ne_none.mp hsource

/-- Only the index of an entry is written. -/
theorem EntryOK.of_index (h : EntryOK S t i) (hbase : Dict.get t (S.base (S.key i)) ≠ none)
    (heq : ∀ p, p ≠ S.entry i indexName → Dict.get u p = Dict.get t p)
    (hindex : ∀ ms content, S.members i = some ms → u.bytesAt (S.entry i indexName) = some content →
      JsonList.Torn content (indexText ms)) : EntryOK S u i where
  rooted := by
    intro hnone
    rw [heq _ (by rw [entry_eq plain_indexName]; exact fun h => absurd h (by simp [indexName]))] at hnone
    exact absurd hnone hbase
  known _ := h.known hbase
  members ms hms m hm := by
    rw [heq _ ?_]
    · exact h.members ms hms m hm
    · rw [entry_eq plain_indexName]
      exact fun h => (accepted_of_mem hms hm).ne_marker.2 (List.append_cancel_left h)
  index := hindex

/-- No step makes an entry wrong. -/
theorem EntryOK.advance (h : EntryOK S t i) (hpc : pc.Knows loose S j t) : EntryOK S (S.advance j t c pc).1 i := by
  by_cases hx : S.WorksIn j c pc (S.key i)
  · -- the step works in the entry
    have hkey : ∀ {r}, S.key i ≠ temporaryName r := key_ne S i rfl
    cases pc with
    | place r =>
      obtain ⟨ms, hms, hall, htext⟩ := hpc
      have hij : i = j := S.key_injective (hx.resolve_left hkey)
      subst hij
      unfold Store.advance
      dsimp only
      split
      · next u _ happly =>
        obtain ⟨hget, hbase⟩ := rename_entry h.rooted happly
        refine ⟨fun hnone => absurd hnone hbase, fun _ => ⟨ms, hms⟩, fun ms' hms' => ?_, fun ms' content hms' hcontent => ?_⟩
        · rw [hms.1] at hms'
          cases hms'
          exact hall.congr hget
        · rw [hms.1] at hms'
          cases hms'
          rw [htext content ?_]
          · exact JsonList.torn_refl _
          · rw [← hcontent, draft_eq plain_indexName, entry_eq plain_indexName]
            exact Disk.bytesAt_congr (hget _).symm
      · exact h
    | reindex =>
      have hij : i = j := S.key_injective hx
      subst hij
      unfold Store.advance
      dsimp only
      -- whatever is done of the write, nothing but the empty file is new
      have hwrite : ∀ u, (Op.write (S.entry i indexName) ([] : Bytes)).apply t = some u → EntryOK S u i := by
        intro u happly
        obtain ⟨⟨mode, hfile⟩, heq, -⟩ := Disk.write_apply happly
        refine h.of_index ?_ heq fun ms content _ hcontent => ?_
        · rw [Op.apply] at happly
          split at happly
          · next hwritable =>
            unfold Disk.Tree.isWritable at hwritable
            rw [entry_eq plain_indexName] at hwritable
            have hparent : (S.base (S.key i) ++ indexName.parts).dropLast = S.base (S.key i) :=
              List.dropLast_concat
            rw [hparent, Bool.and_eq_true, Bool.and_eq_true] at hwritable
            intro hnone
            rw [hnone] at hwritable
            exact absurd hwritable.1.1 Bool.false_ne_true
          · cases happly
        · rw [Disk.bytesAt_of_get hfile] at hcontent
          cases hcontent
          trivial
      rcases attempt_cases t (.write (S.entry i indexName) []) c.fault (.refill 0) (.finished none) with
        ⟨u, happly, heq⟩ | ⟨u, hu, heq⟩
      · rw [heq]
        exact hwrite u happly
      · rw [heq]
        rcases hu with rfl | ⟨n, rfl⟩
        · exact h
        · cases n with
          | zero => exact h
          | succ n =>
            show EntryOK S (((Op.write (S.entry i indexName) (([] : Bytes).take n)).apply t).getD t) i
            rw [List.take_nil]
            cases happly : (Op.write (S.entry i indexName) ([] : Bytes)).apply t with
            | none => exact h
            | some u => exact hwrite u happly
    | refill k =>
      obtain ⟨ms, hms⟩ := hpc
      have hij : i = j := S.key_injective hx
      subst hij
      unfold Store.advance
      dsimp only
      split
      · exact h
      · next hk =>
        rw [hms.getD] at hk ⊢
        show EntryOK S (overwrite t (S.entry i indexName) k (((indexText ms).drop k).take c.size)) i
        unfold overwrite
        split
        · next mode content hfile =>
          refine h.of_index (fun hnone => ?_) (fun p hp => Dict.get_put_of_ne _ _ hp) fun ms' content' hms' hcontent => ?_
          · rw [entry_eq plain_indexName, h.rooted hnone _ ⟨_, rfl⟩] at hfile
            cases hfile
          · rw [hms.1] at hms'
            cases hms'
            rw [Disk.bytesAt_of_get (Dict.get_put_self _ _ _)] at hcontent
            cases hcontent
            exact (h.index ms content hms.1 (Disk.bytesAt_of_get hfile)).overwrite (by omega) c.size
        · exact h
    | makeTemp => exact absurd hx hkey
    | folder r todo => exact absurd hx hkey
    | file r m todo => exact absurd hx hkey
    | index r => exact absurd hx hkey
    | discard r => exact absurd hx hkey
    | cleanup r => exact absurd hx hkey
    | _ => exact hx.elim
  · exact h.congr fun q => get_advance hpc.accepted hx q

/-! ### Runs -/

/-- The temporary directory of a call is its own. -/
theorem temp_advance (h : (S.advance i t c pc).2.temp = some r) :
    pc.temp = some r ∨ (pc = .makeTemp ∧ r = c.name) := by
  have hattempt : ∀ {op : Op Name UInt8} {ok error : Pc}, (attempt t op c.fault ok error).2.temp = some r →
      ok.temp = some r ∨ error.temp = some r := by
    intro op ok error h
    rcases attempt_cases t op c.fault ok error with ⟨u, -, heq⟩ | ⟨u, -, heq⟩
    · rw [heq] at h
      exact .inl h
    · rw [heq] at h
      exact .inr h
  have hdecide : ∀ {u : Tree} {ok error : Pc}, (decideNext u c.fault ok error).2.temp = some r →
      ok.temp = some r ∨ error.temp = some r := by
    intro u ok error h
    unfold decideNext at h
    dsimp only at h
    split at h
    · exact .inr h
    · exact .inl h
  cases pc with
  | look =>
    rcases hdecide h with h | h
    · split at h <;> cases h
    · cases h
  | scan =>
    rcases hdecide h with h | h
    · split at h
      · split at h <;> cases h
      · cases h
    · cases h
  | check =>
    rcases hdecide h with h | h
    · split at h
      · cases h
      · split at h <;> cases h
    · cases h
  | makeCache => rcases hattempt h with h | h <;> cases h
  | makeTemp =>
    rcases hattempt h with h | h
    · exact .inr ⟨rfl, (Option.some.inj h).symm⟩
    · cases h
  | folder r' todo =>
    cases todo with
    | nil => rcases hattempt h with h | h <;> exact .inl h
    | cons m todo => rcases hattempt h with h | h <;> exact .inl h
  | file r' m todo => rcases hattempt h with h | h <;> exact .inl h
  | index r' => rcases hattempt h with h | h <;> exact .inl h
  | arrive r' =>
    rcases hdecide h with h | h
    · split at h
      · split at h <;> exact .inl h
      · exact .inl h
    · exact .inl h
  | place r' =>
    unfold Store.advance at h
    dsimp only at h
    split at h <;> exact .inl h
  | announce r' =>
    rcases hdecide h with h | h
    · cases h
    · exact .inl h
  | discard r' => rcases hattempt h with h | h <;> exact .inl h
  | cleanup r' => rcases hattempt h with h | h <;> cases h
  | reindex => rcases hattempt h with h | h <;> cases h
  | refill k =>
    unfold Store.advance at h
    dsimp only at h
    split at h
    · rcases hdecide h with h | h <;> cases h
    · rcases hdecide h with h | h <;> cases h
  | finished result => cases h

/-- The invariant. -/
structure Sound (S : Store ι) (s : State ι) : Prop where
  entries : ∀ i, EntryOK S s.tree i
  knows : ∀ call ∈ s.calls, call.pc.Knows loose S call.archive s.tree
  temps : ∀ (n n' : ℕ) (call call' : Call ι) (r : Name), s.calls[n]? = some call → s.calls[n']? = some call' → call.pc.temp = some r →
    call'.pc.temp = some r → n = n'

variable {s s' : State ι} {n n' : ℕ} {call call' : Call ι}

/-- The temporary directory of another call is of no concern. -/
theorem not_worksIn (h : Sound S s) (hn : s.calls[n]? = some call) (hn' : s.calls[n']? = some call') (hne : n ≠ n')
    (hr : call'.pc.temp = some r) (hfresh : call.pc = .makeTemp → c.name ≠ r) :
    ¬ S.WorksIn call.archive c call.pc (temporaryName r) := by
  intro hworks
  have hown : ∀ {r'}, call.pc.temp = some r' → temporaryName r ≠ temporaryName r' := by
    intro r' hr' heq
    have heq' := temporaryName_injective heq
    exact hne (h.temps n n' call call' r hn hn' (heq' ▸ hr') hr)
  cases hpc : call.pc with
  | makeTemp =>
    rw [hpc] at hworks
    exact hfresh hpc (temporaryName_injective hworks).symm
  | folder r' todo =>
    rw [hpc] at hworks
    exact hown (by rw [hpc]; rfl) hworks
  | file r' m todo =>
    rw [hpc] at hworks
    exact hown (by rw [hpc]; rfl) hworks
  | index r' =>
    rw [hpc] at hworks
    exact hown (by rw [hpc]; rfl) hworks
  | discard r' =>
    rw [hpc] at hworks
    exact hown (by rw [hpc]; rfl) hworks
  | cleanup r' =>
    rw [hpc] at hworks
    exact hown (by rw [hpc]; rfl) hworks
  | place r' =>
    rw [hpc] at hworks
    rcases hworks with hworks | hworks
    · exact hown (by rw [hpc]; rfl) hworks
    · exact key_ne S _ rfl hworks.symm
  | reindex =>
    rw [hpc] at hworks
    exact key_ne S _ rfl hworks.symm
  | refill k =>
    rw [hpc] at hworks
    exact key_ne S _ rfl hworks.symm
  | _ =>
    rw [hpc] at hworks
    exact hworks

/-- A step of a call. -/
theorem step_act (h : step S s (.act n c) = some s') :
    ∃ call, s.calls[n]? = some call ∧ (call.pc = .makeTemp → ∀ other ∈ s.calls, other.pc.temp ≠ some c.name) ∧
      s' = ⟨(S.advance call.archive s.tree c call.pc).1, s.calls.set n (call.next S s.tree c).2⟩ := by
  unfold step at h
  dsimp only at h
  split at h
  · cases h
  · next call hn =>
    split at h
    · cases h
    · next hfresh =>
      cases h
      refine ⟨call, hn, fun hpc other hother hr => hfresh ⟨hpc, other, hother, hr⟩, rfl⟩

theorem sound_step {e : Event ι} (h : Sound S s) (hstep : step S s e = some s') : Sound S s' := by
  cases e with
  | start i =>
    cases hstep
    refine ⟨h.entries, fun call hcall => ?_, fun n n' call call' r hn hn' hr hr' => ?_⟩
    · rcases List.mem_append.mp hcall with hcall | hcall
      · exact h.knows call hcall
      · rw [List.mem_singleton.mp hcall]
        trivial
    · -- the new call has no directory yet
      have hold : ∀ {n : ℕ} {call : Call ι}, (s.calls ++ [⟨i, .look, false⟩])[n]? = some call → call.pc.temp = some r →
          s.calls[n]? = some call := by
        intro n call hn hr
        by_cases hlt : n < s.calls.length
        · rwa [List.getElem?_append_left hlt] at hn
        · rw [List.getElem?_append_right (by omega)] at hn
          have hmem := List.mem_of_getElem? hn
          rw [List.mem_singleton.mp hmem] at hr
          cases hr
      exact h.temps n n' call call' r (hold hn hr) (hold hn' hr') hr hr'
  | delete p =>
    unfold step at hstep
    dsimp only at hstep
    split at hstep
    · cases hstep
    · cases hstep
      exact ⟨fun i => (h.entries i).cut p, fun call hcall => (h.knows call hcall).cut p, h.temps⟩
  | act n c =>
    obtain ⟨call, hn, hfresh, rfl⟩ := step_act hstep
    have hcall := h.knows call (List.mem_of_getElem? hn)
    refine ⟨fun i => (h.entries i).advance hcall, fun call' hcall' => ?_, fun m m' callm callm' r hm hm' hr hr' => ?_⟩
    · obtain ⟨m, hm⟩ := List.getElem?_of_mem hcall'
      rw [List.getElem?_set] at hm
      split at hm
      · split at hm
        · cases hm
          exact hcall.advance
        · cases hm
      · next hne =>
        have hmem := List.mem_of_getElem? hm
        refine (h.knows call' hmem).congr fun r hr q => get_advance hcall.accepted ?_ q
        exact not_worksIn h hn hm hne hr fun hpc heq => hfresh hpc call' hmem (heq ▸ hr)
    · -- a directory of the call itself is the one it had, or new
      have hself : ∀ {m' : ℕ} {callm' : Call ι}, n ≠ m' → s.calls[m']? = some callm' → (call.next S s.tree c).2.pc.temp = some r →
          callm'.pc.temp ≠ some r := by
        intro m' callm' hne hm' hr hr'
        rcases temp_advance hr with hold | ⟨hpc, rfl⟩
        · exact hne (h.temps n m' call callm' r hn hm' hold hr')
        · exact hfresh hpc callm' (List.mem_of_getElem? hm') hr'
      rw [List.getElem?_set] at hm hm'
      split at hm
      · next hnm =>
        split at hm
        · cases hm
          split at hm'
          · next hnm' => exact hnm.symm.trans hnm'
          · next hne => exact absurd hr' (hself hne hm' hr)
        · cases hm
      · next hne =>
        split at hm'
        · next hnm' =>
          split at hm'
          · cases hm'
            exact absurd hr (hself hne hm hr')
          · cases hm'
        · exact h.temps m m' callm callm' r hm hm' hr hr'

/-- The cache without an entry of the archive. -/
def Store.Cold (S : Store ι) (i : ι) (t : Tree) : Prop := ∀ q, Dict.get t (S.base (S.key i) ++ q) = none

theorem Store.Cold.entryOK (h : S.Cold i t) : EntryOK S t i where
  rooted := by
    rintro - _ ⟨q, rfl⟩
    exact h q
  known hne := by
    have hbase := h []
    rw [List.append_nil] at hbase
    exact absurd hbase hne
  members ms hms m hm mode content heq := by
    rw [h] at heq
    cases heq
  index ms content hms hcontent := by
    obtain ⟨mode, hfile⟩ := Disk.get_of_bytesAt hcontent
    rw [entry_eq plain_indexName, h] at hfile
    cases hfile

/-- A cache without entries, and no calls. -/
def Initial (S : Store ι) (s : State ι) : Prop := (∀ i, S.Cold i s.tree) ∧ s.calls = []

theorem Initial.sound (h : Initial S s) : Sound S s where
  entries i := (h.1 i).entryOK
  knows call hcall := by
    rw [h.2] at hcall
    cases hcall
  temps n n' call call' r hn := by
    rw [h.2] at hn
    cases hn

/-- The entries are right in every run of any calls, with whatever breaks off or is deleted. -/
theorem sound_run {events : List (Event ι)} (h : Initial S s) (hrun : Machine.run (step S) s events = some s') :
    Sound S s' :=
  Machine.invariant (fun _ _ _ hsound hstep => sound_step hsound hstep) h.sound hrun

/-! ### The names of a cache and of an entry -/

theorem normal_cache : ['.', '.'] ∉ ["cache".toList] := by decide +kernel

theorem visible_entry (_ : Unit) : ("0f".toList : Name).head?.any (· ≠ '.') = true := by decide +kernel

end Archives
end Slurmy
