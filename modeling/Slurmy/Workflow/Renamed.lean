import Slurmy.Workflow.Relocate

/-!
# A renamed workflow

What `rename_workflow` leaves when it succeeds.

* `Request.after`: what a file holds afterwards;
* `triple_readFiles_get`: the journal, from the files;
* `triple_putFiles_written`: the files, from the journal;
* `Renamed`, `renameWorkflow_renamed`: the tree.
-/

namespace Slurmy
namespace Relocating

open Disk Attempt
open Saving (Bytes Path Files)

variable {source destination : Path} {r : Request source} {t : Files} {w : World Text UInt8} {e : Failure}
  {updates written : List Update} {rel : Path}

/-- What a file holds afterwards. -/
def Request.after (r : Request source) (t : Files) (rel : Path) : Option Bytes :=
  if rel = Relocating.manifest then r.manifest t
  else (t.bytesAt (source ++ rel)).map fun body =>
    if IsBundle source t rel then (r.rewriteBundle body).join.getD body
    else if IsCandidate source t rel then r.rewrite body
    else body

/-- The item of the journal for a file. -/
def entryOf (source : Path) (rewrite : Bytes → Option (Option Bytes)) (t : Files) (rel : Path) :
    Option (Option Bytes × Bytes) :=
  (t.bytesAt (source ++ rel)).bind fun body => (rewrite body).join.map fun after => (some body, after)

/-- What the journal says of the files that have been read. -/
theorem triple_readFiles_get {rewrite : Bytes → Option (Option Bytes)} (rels : List Path) (updates : List Update) :
    Triple (Before t) (readFiles source rewrite updates rels)
      (fun updates' _ => ∀ rel, Dict.get updates' rel =
        if rel ∈ rels then (entryOf source rewrite t rel).or (Dict.get updates rel) else Dict.get updates rel)
      (fun _ => True) := by
  induction rels generalizing updates with
  | nil => exact Triple.pure fun _ _ rel => (if_neg List.not_mem_nil).symm
  | cons first rels ih =>
    refine Triple.bind (R := fun v w => Before t w ∧ v = t) ?_ fun v => ?_
    · exact triple_look.weaken (fun _ h => h) (fun _ _ h => h) fun _ _ => trivial
    refine (triple_orThrow fun _ _ => trivial).bind fun body => ?_
    refine (triple_orThrow fun _ _ => trivial).bind fun changed => ?_
    intro w hw
    obtain ⟨⟨⟨hbefore, rfl⟩, hbody⟩, hchanged⟩ := hw
    refine (ih _).weaken (fun _ h => h) (fun updates' w' hall rel => ?_) (fun _ h => h) w hbefore
    have hentry : entryOf source rewrite v first = changed.map fun after => (some body, after) := by
      unfold entryOf
      rw [hbody, Option.bind_some, hchanged, Option.join_some]
    have hget (rel : Path) : Dict.get (changed.elim updates fun after => Dict.put updates first (some body, after)) rel =
        if rel = first then (entryOf source rewrite v first).or (Dict.get updates rel) else Dict.get updates rel := by
      rw [hentry]
      cases changed with
      | none => exact (ite_self _).symm
      | some after =>
        show Dict.get (Dict.put updates first (some body, after)) rel = _
        rw [Dict.get_put]
        rfl
    rw [hall, hget]
    by_cases hfirst : rel = first
    · subst hfirst
      rw [if_pos rfl, if_pos List.mem_cons_self]
      split
      · rw [← Option.or_assoc, Option.or_self]
      · rfl
    · rw [if_neg hfirst]
      by_cases hmem : rel ∈ rels
      · rw [if_pos hmem, if_pos (List.mem_cons_of_mem first hmem)]
      · rw [if_neg hmem, if_neg fun h => hmem ((List.mem_cons.mp h).resolve_left hfirst)]

/-! ### The files -/

/-- These files have been written. -/
def Written (destination : Path) (written : List Update) (w : World Text UInt8) : Prop :=
  w.Quiet ∧ ∀ u ∈ written, w.tree.bytesAt (destination ++ u.1) = some u.2.2

theorem Written.look (h : Written destination written w) :
    Written destination written { w with steps := w.steps.drop 1 } := ⟨h.1.drop, h.2⟩

/-- A temporary file changes. -/
theorem Written.after (h : Written destination written w) (hlasting : ∀ u ∈ written, Lasting u.1) {op : Op Text UInt8}
    {v : Files} (hother : ∀ p, p ≠ destination ++ temporary rel → Dict.get v p = Dict.get w.tree p) :
    Written destination written (w.after [op] v) := by
  refine ⟨h.1.after, fun u hu => ?_⟩
  rw [← h.2 u hu]
  refine bytesAt_congr (hother _ fun heq => ?_)
  exact (hlasting u hu).ne_temporary rel (List.append_cancel_left heq)

/-- The temporary file of the next one has been written, too. -/
def Staged (destination : Path) (written : List Update) (u : Update) (w : World Text UInt8) : Prop :=
  Written destination written w ∧ w.tree.bytesAt (destination ++ temporary u.1) = some u.2.2

theorem triple_putFile_written {u : Update} (hu : Lasting u.1)
    (hwritten : ∀ v ∈ written, Lasting v.1 ∧ v.1 ≠ u.1) :
    Triple (Written destination written) (putFile destination u) (fun _ => Written destination (written ++ [u]))
      (fun _ => True) := by
  have hlasting : ∀ v ∈ written, Lasting v.1 := fun v hv => (hwritten v hv).1
  have hne : destination ++ temporary u.1 ≠ destination ++ u.1 := fun heq =>
    hu.ne_temporary u.1 (List.append_cancel_left heq).symm
  refine Triple.bind (R := fun _ => Staged destination written u) ?_ fun _ => ?_
  · refine triple_perform_alone (fun _ h => h.1) (fun w v h hv => ?_) fun _ _ _ _ _ => trivial
    obtain ⟨⟨mode, hfile⟩, hother, -⟩ := write_apply hv
    exact ⟨h.after hlasting hother, bytesAt_of_get hfile⟩
  refine Triple.bind (R := fun _ => Staged destination written u) ?_ fun v => ?_
  · exact triple_observe_alone (fun _ h => h.1.1) (fun _ h => ⟨h.1.look, h.2⟩) fun _ _ => trivial
  refine Triple.bind (R := fun _ => Staged destination written u) ?_ fun _ => ?_
  · split
    · exact Triple.pure fun _ h => h
    · refine triple_perform_alone (fun _ h => h.1.1) (fun w v h hv => ?_) fun _ _ _ _ _ => trivial
      obtain ⟨hother, hbytes⟩ := chmod_apply hv
      exact ⟨h.1.after hlasting hother, hbytes.trans h.2⟩
  refine triple_perform_alone (fun _ h => h.1.1) (fun w v h hv => ?_) fun _ _ _ _ _ => trivial
  obtain ⟨⟨mode, content, hfile, htarget⟩, -, hother, -⟩ := replace_apply hv hne
  have hcontent : content = u.2.2 := by
    have hstaged := h.2
    rw [bytesAt_of_get hfile] at hstaged
    exact Option.some.inj hstaged
  refine ⟨h.1.1.after, fun u' hu' => ?_⟩
  rcases List.mem_append.mp hu' with hmem | hlast
  · rw [← h.1.2 u' hmem]
    obtain ⟨hlasting', hdiffer⟩ := hwritten u' hmem
    exact bytesAt_congr (hother _ (fun heq => hlasting'.ne_temporary u.1 (List.append_cancel_left heq))
      fun heq => hdiffer (List.append_cancel_left heq))
  · rw [List.mem_singleton.mp hlast, ← hcontent]
    exact bytesAt_of_get htarget

/-- All files of the journal are written. -/
theorem triple_putFiles_written (us : List Update) (hupdates : updates = written ++ us)
    (hjournal : Journal source t updates) :
    Triple (fun w => Away source destination t (touchedBy updates written) w ∧ Written destination written w)
      (putFiles source destination written us)
      (fun _ w => Away source destination t (touchedBy updates updates) w ∧ Written destination updates w)
      (fun _ => True) := by
  induction us generalizing written with
  | nil =>
    rw [List.append_nil] at hupdates
    subst hupdates
    exact Triple.pure fun _ h => h
  | cons u us ih =>
    have hu : u ∈ updates := hupdates ▸ List.mem_append_right _ List.mem_cons_self
    have hnew : u.1 ∉ written.map Prod.fst := by
      have hnodup := hjournal.nodup
      rw [hupdates, List.map_append, List.nodup_append'] at hnodup
      exact fun hmem => hnodup.2.2 hmem List.mem_cons_self
    have hwritten : ∀ v ∈ written, Lasting v.1 ∧ v.1 ≠ u.1 := fun v hv =>
      ⟨hjournal.lasting v (hupdates ▸ List.mem_append_left _ hv), fun heq => hnew (heq ▸ List.mem_map_of_mem hv)⟩
    have hput : Triple (Written destination written) (putFile destination u) _ _ :=
      triple_putFile_written (hjournal.lasting u hu) hwritten
    refine Triple.bind (((triple_putFile hjournal hu hnew).and hput).onError Triple.trivial) fun _ => ?_
    have hsplit : updates = written ++ [u] ++ us := by
      rw [hupdates, List.append_assoc]
      rfl
    exact (ih hsplit).weaken (fun _ h => ⟨h.1.1, h.2⟩) (fun _ _ h => h) fun _ h => h

/-! ### The whole program -/

/-- The workflow is in its new place, with its files. -/
structure Renamed (source destination : Path) (r : Request source) (t u : Files) : Prop where
  data : ∃ data, r.manifest t = some data
  gone : ∀ p, source <+: p → Dict.get u p = none
  other : ∀ p, ¬ source <+: p → ¬ destination <+: p → Dict.get u p = Dict.get t p
  files : ∀ rel, (∀ rel', Writes source t rel' → rel ≠ temporary rel') → u.bytesAt (destination ++ rel) = r.after t rel
  rest : ∀ rel, (∀ rel', Writes source t rel' → rel ≠ temporary rel') → ¬ Writes source t rel →
    Dict.get u (destination ++ rel) = Dict.get t (source ++ rel)

theorem not_isBundle_manifest : ¬ IsBundle source t manifest := by
  rintro ⟨-, -, hparent, -⟩
  exact absurd hparent (by decide +kernel)

theorem suffix_of_bundle {n : Text} (h : ".tar.gz".toList <:+ n) : suffix n = ".gz".toList := by
  obtain ⟨front, rfl⟩ := h
  have htail : (front ++ ".tar.gz".toList).rtakeWhile (· ≠ '.') = "gz".toList := by
    have hsplit : front ++ ".tar.gz".toList = front ++ ".tar".toList ++ ['.'] ++ "gz".toList := by
      simp only [List.append_assoc]
      rfl
    rw [hsplit, List.rtakeWhile, List.reverse_append, List.reverse_append]
    rfl
  unfold suffix
  rw [htail]
  have hlength : ("gz".toList).length + 1 < (front ++ ".tar.gz".toList).length := by
    rw [List.length_append]
    exact Nat.lt_add_left _ (by decide +kernel)
  exact if_pos ⟨by decide +kernel, hlength⟩

theorem IsBundle.not_isCandidate (h : IsBundle source t rel) : ¬ IsCandidate source t rel := by
  have hgz : ".gz".toList ∉ suffixes := by decide +kernel
  have hsuffix := suffix_of_bundle h.2.2.2
  rintro ⟨-, ⟨hlength, -⟩ | ⟨-, -, -, hmem⟩⟩
  · have hparent := congrArg List.length h.2.2.1
    rw [List.length_dropLast, hlength] at hparent
    exact absurd hparent (by decide +kernel)
  · rw [hsuffix] at hmem
    exact hgz hmem

/-- What the journal says is what the files hold afterwards. -/
theorem after_of_get {data : Bytes} {before : Option Bytes} {candidates bundles : List Path} {read : List Update}
    (hcandidates : ∀ rel, rel ∈ candidates ↔ IsCandidate source t rel)
    (hbundles : ∀ rel, rel ∈ bundles ↔ IsBundle source t rel) (hdata : r.manifest t = some data)
    (hread : ∀ rel, Dict.get read rel =
      if rel ∈ candidates then (entryOf source r.changed t rel).or (Dict.get [] rel) else Dict.get [] rel)
    (hupdates : ∀ rel, Dict.get updates rel =
      if rel ∈ bundles then (entryOf source r.rewriteBundle t rel).or (Dict.get (Dict.put read manifest (before, data)) rel)
      else Dict.get (Dict.put read manifest (before, data)) rel) (rel : Path) :
    ((Dict.get updates rel).map Prod.snd).or (t.bytesAt (source ++ rel)) = r.after t rel := by
  have hnil : Dict.get ([] : List Update) rel = none := rfl
  rw [hupdates, Dict.get_put, hread, hnil, Option.or_none]
  unfold Request.after
  by_cases hmanifest : rel = manifest
  · subst hmanifest
    rw [if_neg fun h => not_isBundle_manifest ((hbundles _).mp h), if_pos rfl, if_pos rfl, hdata]
    rfl
  rw [if_neg hmanifest, if_neg hmanifest]
  by_cases hbundle : IsBundle source t rel
  · rw [if_pos ((hbundles rel).mpr hbundle), if_neg fun h => hbundle.not_isCandidate ((hcandidates rel).mp h),
      Option.or_none]
    unfold entryOf
    cases t.bytesAt (source ++ rel) with
    | none => rfl
    | some body =>
      rw [Option.bind_some, Option.map_some, if_pos hbundle]
      cases (r.rewriteBundle body).join <;> rfl
  · rw [if_neg fun h => hbundle ((hbundles rel).mp h)]
    by_cases hcandidate : IsCandidate source t rel
    · rw [if_pos ((hcandidates rel).mpr hcandidate)]
      unfold entryOf
      cases t.bytesAt (source ++ rel) with
      | none => rfl
      | some body =>
        rw [Option.bind_some, Option.map_some, if_neg hbundle, if_pos hcandidate]
        unfold Request.changed
        rw [Option.join_some]
        split
        · next hsame => rw [hsame]; rfl
        · rfl
    · rw [if_neg fun h => hcandidate ((hcandidates rel).mp h)]
      cases t.bytesAt (source ++ rel) with
      | none => rfl
      | some body =>
        rw [Option.map_some, if_neg hbundle, if_neg hcandidate]
        rfl

/-- The journal is written, in the new place. -/
theorem renamed_of_written {data : Bytes} (hdata : r.manifest t = some data) (hjournal : Journal source t updates)
    (haway : Away source destination t (touchedBy updates updates) w) (hwritten : Written destination updates w)
    (hafter : ∀ rel, ((Dict.get updates rel).map Prod.snd).or (t.bytesAt (source ++ rel)) = r.after t rel) :
    Renamed source destination r t w.tree := by
  have hfresh : ∀ rel, (∀ rel', Writes source t rel' → rel ≠ temporary rel') → rel ∉ updates.map Prod.fst →
      rel ∉ touchedBy updates updates := by
    rintro rel htemporary hkeys (⟨u, hu, rfl⟩ | hmem)
    · exact htemporary u.1 (hjournal.writes u hu) rfl
    · exact hkeys hmem
  refine ⟨⟨data, hdata⟩, haway.gone, haway.other, fun rel htemporary => ?_, fun rel htemporary hwrites => ?_⟩
  · rw [← hafter rel]
    cases hget : Dict.get updates rel with
    | some entry => exact hwritten.2 (rel, entry) (Dict.mem_of_get hget)
    | none =>
      refine bytesAt_congr (haway.same rel (hfresh rel htemporary fun hmem => ?_))
      have hsome := Dict.mem_keys.mp hmem
      unfold Dict.get at hget
      rw [hget] at hsome
      cases hsome
  · refine haway.same rel (hfresh rel htemporary fun hmem => hwrites ?_)
    obtain ⟨u, hu, rfl⟩ := List.mem_map.mp hmem
    exact hjournal.writes u hu

theorem triple_relocate_renamed (hrooted : Rooted destination t) :
    Triple (Before t) (relocate source destination r)
      (fun found w => found = destination ∧ Renamed source destination r t w.tree) (fun _ => True) := by
  have htrue : ∀ {P : World Text UInt8 → Prop}, ∀ w, P w → True := fun _ _ => trivial
  have hlook : ∀ {P : Prop}, Triple (fun w => Before t w ∧ P) (observe Failure.look)
      (fun v w => (Before t w ∧ P) ∧ v = t) (fun _ => True) := by
    intro P
    exact triple_observe_alone (fun _ h => h.1.quiet) (fun _ h => ⟨⟨h.1.look, h.2⟩, h.1.tree⟩) fun _ _ => trivial
  unfold relocate
  refine Triple.bind (triple_look.weaken (fun _ h => h) (fun _ _ h => h.1) htrue) fun _ => ?_
  refine (Triple.check htrue).bind fun _ => ?_
  refine Triple.bind (triple_look.weaken (fun _ h => h) (fun _ _ h => h) htrue) fun v => ?_
  refine Triple.bind (triple_orThrow htrue) fun data => ?_
  intro w hw
  obtain ⟨⟨hbefore, rfl⟩, hdata⟩ := hw
  refine Triple.bind (triple_look.weaken (fun _ h => h) (fun _ _ h => h) htrue) (fun v' => ?_) w hbefore
  intro w hw
  obtain ⟨hbefore, rfl⟩ := hw
  have hcandidates : ∀ rel ∈ (r.listing v').candidates, Lasting rel ∧ Writes source v' rel := fun rel hrel =>
    have hcandidate := ((r.listing v').mem_candidates rel).mp hrel
    ⟨hcandidate.lasting, .inr (.inl hcandidate)⟩
  have hget : Triple (Before v') (readFiles source r.changed [] (r.listing v').candidates) _ _ :=
    triple_readFiles_get _ []
  refine Triple.bind (((triple_readFiles _ hcandidates []).and hget).weaken (fun _ h => h) (fun _ _ h => h) htrue)
    (fun read => ?_) w ⟨⟨hbefore, journal_nil⟩, hbefore⟩
  intro w hw
  obtain ⟨⟨hbefore, hjournal⟩, hread⟩ := hw
  refine Triple.bind (triple_look.weaken (fun _ h => h) (fun _ _ h => h) htrue) (fun v => ?_) w hbefore
  intro w hw
  obtain ⟨hbefore, rfl⟩ := hw
  have hput : Journal source v (Dict.put read manifest (v.bytesAt (source ++ manifest), data)) :=
    hjournal.put rfl lasting_manifest (.inl rfl)
  refine hlook.bind (fun v' => ?_) w ⟨hbefore, hput⟩
  intro w hw
  obtain ⟨hw, rfl⟩ := hw
  have hbundles : ∀ rel ∈ (r.listing v').bundles, Lasting rel ∧ Writes source v' rel := fun rel hrel =>
    have hbundle := ((r.listing v').mem_bundles rel).mp hrel
    ⟨hbundle.lasting, .inr (.inr hbundle)⟩
  have hget : Triple (Before v') (readFiles source r.rewriteBundle
      (Dict.put read manifest (v'.bytesAt (source ++ manifest), data)) (r.listing v').bundles) _ _ :=
    triple_readFiles_get _ _
  refine Triple.bind (((triple_readFiles _ hbundles _).and hget).weaken (fun _ h => h) (fun _ _ h => h) htrue)
    (fun updates => ?_) w ⟨hw, hw.1⟩
  intro w hw
  obtain ⟨⟨hbefore, hjournal⟩, hupdates⟩ := hw
  have hempty : ∀ w, Away source destination v' ∅ w →
      Away source destination v' (touchedBy updates []) w ∧ Written destination [] w := fun _ h =>
    ⟨h.mono (Set.empty_subset _), h.quiet, fun u hu => absurd hu List.not_mem_nil⟩
  refine Triple.bind ((triple_rename hrooted).weaken (fun _ h => h) (fun _ w h => hempty w h) htrue)
    (fun _ => ?_) w hbefore
  refine Triple.bind (triple_putFiles_written updates rfl hjournal) fun _ => Triple.pure fun w h => ⟨rfl, ?_⟩
  exact renamed_of_written hdata hjournal h.1 h.2
    (after_of_get (r.listing v').mem_candidates (r.listing v').mem_bundles hdata hread hupdates)

/-- A renaming that succeeds. -/
theorem renameWorkflow_renamed {runs found : Path} {faults : List (Option ℕ)} (hrooted : Rooted (runs ++ [r.name]) t)
    (hname : runs ++ [r.name] ≠ source) (hrun : renameWorkflow runs source r (World.start t faults) = .ok found w) :
    Portable.isWorkflowName r.name = true ∧ found = runs ++ [r.name] ∧
      Renamed source (runs ++ [r.name]) r t w.tree := by
  have htriple : Triple (Before t) (renameWorkflow runs source r)
      (fun found w => Portable.isWorkflowName r.name = true ∧ found = runs ++ [r.name] ∧
        Renamed source (runs ++ [r.name]) r t w.tree) (fun _ => True) := by
    unfold renameWorkflow
    refine (Triple.check fun _ _ => trivial).bind fun _ => (Triple.require fun _ _ => trivial).bind fun _ => ?_
    rw [if_neg hname]
    intro w hw
    exact (triple_relocate_renamed hrooted).weaken (fun _ h => h) (fun _ _ h => ⟨hw.2.2, h⟩) (fun _ h => h) w hw.1
  have hafter := htriple (World.start t faults) ⟨quiet_start t faults, rfl⟩
  rw [hrun] at hafter
  exact hafter

end Relocating
end Slurmy
