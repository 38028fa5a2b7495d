import Slurmy.Build.Cache

/-!
# What is reused

* `Built`, `Seen`: the builds that succeed, and what the fingerprints read;
* `undisturbed`: nobody changes the inputs or what has been downloaded between a fingerprint and what it stands for;
* `Distinct`: different trees have different fingerprints;
* `reuse_current`: then the outputs that are reused are those of a build of the current inputs, and
  the current inputs are those of the build with its own download laid over them;
* `reuse_edited`: an edit during the download is taken for the input of the build;
* `reuse_downloaded`: in an in-place build the inputs are no longer those of any build.
-/

namespace Slurmy
namespace Build

/-! ### Builds and observations -/

/-- A successful build: what was copied to the cluster, and what was downloaded. -/
structure Built where
  inputs : Inputs
  result : Entries
  deriving DecidableEq

/-- What a step of a run reads from the local files, or the build that it completes. -/
inductive Seen
  | inputs (i : Inputs)
  | outputs (es : Entries)
  | built (b : Built)
  deriving DecidableEq

def State.seen (driver : Text) (s : State) : Event → List Seen
  | .next =>
      match s.active with
      | none => []
      | some r =>
          match r.pc with
          | .fingerprint | .recordInputs =>
              (inputs driver s.files r.args).toList.map Seen.inputs
          | .decide initial =>
              if (candidate s r initial).isSome then
                [Seen.outputs (entries s.files r.args.output)]
              else []
          | .check .. =>
              (inputs driver (mkdirs s.files r.args.output) r.args).toList.map Seen.inputs
          | .verify _ staged result =>
              if arrived s.files r.args then [Seen.built ⟨staged, result⟩] else []
          | .recordOutputs _ => [Seen.outputs (entries s.files r.args.output)]
          | _ => []
  | _ => []

/-- Two different trees with one fingerprint. -/
def Seen.clash : Seen → Seen → Bool
  | .inputs i, .inputs j => i != j && i.fingerprint.isSome && i.fingerprint == j.fingerprint
  | .outputs es, .outputs fs =>
      es != fs && (treeFingerprint es).isSome && treeFingerprint es == treeFingerprint fs
  | _, _ => false

def Distinct (w : List Seen) : Prop := ∀ x ∈ w, ∀ y ∈ w, x.clash y = false

instance (w : List Seen) : Decidable (Distinct w) := List.decidableBAll _ _

/-- The check before the download finds the inputs unchanged. -/
def findsUnchanged (driver : Text) (files : Files) (a : Args) (initial : Option Text) : Bool :=
  initial.isSome && inputFingerprint driver (mkdirs files a.output) a == initial

/-- The recipe and the source are the same in both. -/
def keepsInputs (a : Args) (files files' : Files) : Bool :=
  contents files a.recipe == contents files' a.recipe &&
    a.context.map (entries files) == a.context.map (entries files')

/-- These entries of the output folder are the same in both. -/
def keepsOutputs (a : Args) (files files' : Files) (es : Entries) : Bool :=
  es.all fun e => files'.lookup (a.output ++ e.1) == files.lookup (a.output ++ e.1)

/-- Nobody else changes the inputs between the first fingerprint and the decision, nor from a check that
finds them unchanged to the fingerprint for the receipt; nobody changes what has been downloaded until
the outputs are fingerprinted; and what such a check finds is what was copied. -/
def undisturbed (driver : Text) (s : State) : Event → Bool
  | .edit files =>
      match s.active with
      | some ⟨a, _, .decide _⟩ => keepsInputs a s.files files
      | some ⟨a, _, .download unchanged _ result rest⟩ =>
          !unchanged || keepsInputs a s.files files &&
            keepsOutputs a s.files files (result.filter fun e => decide (e ∉ rest))
      | some ⟨a, _, .verify unchanged _ result⟩ =>
          !unchanged || keepsInputs a s.files files && keepsOutputs a s.files files result
      -- what was in the folder before the download also gets into the receipt
      | some ⟨a, _, .recordInputs⟩ =>
          keepsInputs a s.files files && keepsOutputs a s.files files (entries s.files a.output)
      | some ⟨a, _, .recordOutputs _⟩ => keepsOutputs a s.files files (entries s.files a.output)
      | _ => true
  | .next =>
      match s.active with
      | some ⟨a, _, .check initial staged _⟩ =>
          !findsUnchanged driver s.files a initial ||
            inputs driver (mkdirs s.files a.output) a == some staged
      | _ => true
  | _ => true

/-- Files that hold the inputs and nothing else. -/
def Inputs.files (i : Inputs) : Files :=
  let files := (∅ : Files).insert i.args.recipe (.file 33188 i.recipe)
  match i.args.context, i.source with
  | some context, some es => Folder.lay context files es
  | _, _ => files

/-- The download has written neither the recipe nor below the source. -/
def Built.apart (b : Built) : Prop :=
  ∀ e ∈ b.result, b.inputs.args.output ++ e.1 ≠ b.inputs.args.recipe ∧
    ∀ context ∈ b.inputs.args.context, ¬ context <+: b.inputs.args.output ++ e.1

/-- What the steps of the events see. -/
def observed (driver : Text) (root : Path) (files : Files) (es : List Event) : List Seen :=
  Machine.trace (State.step driver root) (State.seen driver) (.initial files) es

variable {driver : Text} {root : Path} {files files' : Files} {a : Args} {i : Inputs}
  {result : Entries} {w : List Seen}

/-! ### Inputs and downloads -/

/-- What the job on the cluster leaves. -/
structure Result (result : Entries) : Prop where
  nodup : (result.map Prod.fst).Nodup
  names : ∀ e ∈ result, e.1 ≠ [] ∧ isCacheFile e.1 = false

theorem Result.lookup_lay (hresult : Result result) {e : Path × Node} (he : e ∈ result)
    (files : Files) : (Folder.lay root files result).lookup (root ++ e.1) = some e.2 := by
  apply Folder.lookup_lay_of_mem he
  intro n hn
  exact congrArg Prod.snd (List.inj_on_of_nodup_map hresult.nodup hn he rfl)

theorem mem_entries {e : Path × Node} :
    e ∈ entries files root ↔
      e.1 ≠ [] ∧ isCacheFile e.1 = false ∧ files.lookup (root ++ e.1) = some e.2 := by
  obtain ⟨r, n⟩ := e
  rw [entries, Folder.mem_rglob, Bool.not_eq_true']

theorem contents_congr {p : Path} (h : files.lookup p = files'.lookup p) :
    contents files p = contents files' p := by
  unfold contents
  rw [h]

/-- The inputs are what the recipe's path and the paths below the source hold. -/
theorem inputs_congr (hrecipe : contents files a.recipe = contents files' a.recipe)
    (hsource : ∀ context ∈ a.context, ∀ r ≠ [], isCacheFile r = false →
      files.lookup (context ++ r) = files'.lookup (context ++ r)) :
    inputs driver files a = inputs driver files' a := by
  have hentries : a.context.map (entries files) = a.context.map (entries files') := by
    cases hcontext : a.context with
    | none => rfl
    | some context =>
      refine congrArg some (Folder.rglob_congr fun r hr hkeep => ?_)
      exact hsource context hcontext r hr (by simpa using hkeep)
  unfold inputs
  rw [hrecipe, hentries]

theorem keepsInputs_iff : keepsInputs a files files' = true ↔
    contents files a.recipe = contents files' a.recipe ∧
      ∀ context ∈ a.context, ∀ r ≠ [], isCacheFile r = false →
        files.lookup (context ++ r) = files'.lookup (context ++ r) := by
  unfold keepsInputs
  rw [Bool.and_eq_true, beq_iff_eq, beq_iff_eq]
  refine and_congr_right fun _ => ⟨fun h context hcontext r hr hname => ?_, fun h => ?_⟩
  · have hcontext : a.context = some context := hcontext
    rw [hcontext] at h
    have hentries : entries files context = entries files' context := Option.some.inj h
    refine Option.ext fun n => ?_
    have hmem : (r, n) ∈ entries files context ↔ r ≠ [] ∧ isCacheFile r = false ∧ files.lookup (context ++ r) = some n :=
      mem_entries
    rw [hentries, mem_entries] at hmem
    exact ⟨fun hn => (hmem.2 ⟨hr, hname, hn⟩).2.2, fun hn => (hmem.1 ⟨hr, hname, hn⟩).2.2⟩
  · cases hcontext : a.context with
    | none => rfl
    | some context =>
      refine congrArg some (Folder.rglob_congr fun r hr hkeep => ?_)
      exact h context hcontext r hr (by simpa using hkeep)

theorem inputs_of_keepsInputs (h : keepsInputs a files files' = true) : inputs driver files a = inputs driver files' a :=
  inputs_congr (keepsInputs_iff.1 h).1 (keepsInputs_iff.1 h).2

theorem keepsInputs_refl (a : Args) (files : Files) : keepsInputs a files files = true :=
  keepsInputs_iff.2 ⟨rfl, fun _ _ _ _ _ => rfl⟩

theorem keepsInputs_trans {files'' : Files} (h : keepsInputs a files files' = true)
    (h' : keepsInputs a files' files'' = true) : keepsInputs a files files'' = true := by
  rw [keepsInputs_iff] at h h' ⊢
  exact ⟨h.1.trans h'.1, fun context hcontext r hr hname =>
    (h.2 context hcontext r hr hname).trans (h'.2 context hcontext r hr hname)⟩

/-- A file that comes into both. -/
theorem keepsInputs_insert (h : keepsInputs a files files' = true) (p : Path) (n : Node) :
    keepsInputs a (files.insert p n) (files'.insert p n) = true := by
  have hlookup : ∀ q, files.lookup q = files'.lookup q →
      (files.insert p n).lookup q = (files'.insert p n).lookup q := by
    intro q hq
    by_cases heq : q = p
    · rw [heq, AList.lookup_insert, AList.lookup_insert]
    · rw [AList.lookup_insert_ne heq, AList.lookup_insert_ne heq, hq]
  obtain ⟨hrecipe, hsource⟩ := keepsInputs_iff.1 h
  refine keepsInputs_iff.2 ⟨?_, fun context hcontext r hr hname => hlookup _ (hsource context hcontext r hr hname)⟩
  by_cases heq : a.recipe = p
  · exact contents_congr (by rw [heq, AList.lookup_insert, AList.lookup_insert])
  · rw [contents_congr (AList.lookup_insert_ne heq), contents_congr (AList.lookup_insert_ne heq), hrecipe]

theorem inputs_eq_some (h : inputs driver files a = some i) :
    i.args = a ∧ contents files a.recipe = some i.recipe ∧ i.source = a.context.map (entries files) ∧
      i.driver = driver := by
  obtain ⟨text, htext, rfl⟩ := Option.map_eq_some_iff.1 h
  exact ⟨rfl, htext, rfl, rfl⟩

theorem lookup_lay_cases (root : Path) (result : Entries) (p : Path) :
    (∃ e ∈ result, p = root ++ e.1) ∨
      ∀ files : Files, (Folder.lay root files result).lookup p = files.lookup p := by
  by_cases h : ∃ e ∈ result, p = root ++ e.1
  · exact .inl h
  · right
    intro files
    apply Folder.lookup_lay_of_not_mem
    intro e he heq
    exact h ⟨e, he, heq⟩

/-- The same entries over two trees agree wherever the trees do. -/
theorem Result.lookup_lay_congr (hresult : Result result) {p : Path}
    (h : files.lookup p = files'.lookup p) :
    (Folder.lay root files result).lookup p = (Folder.lay root files' result).lookup p := by
  rcases lookup_lay_cases root result p with ⟨e, he, rfl⟩ | hout
  · rw [hresult.lookup_lay he, hresult.lookup_lay he]
  · rw [hout, hout, h]

theorem Result.contents_lay_congr (hresult : Result result) {p : Path}
    (h : contents files p = contents files' p) :
    contents (Folder.lay root files result) p = contents (Folder.lay root files' result) p := by
  rcases lookup_lay_cases root result p with ⟨e, he, rfl⟩ | hout
  · apply contents_congr
    rw [hresult.lookup_lay he, hresult.lookup_lay he]
  · rw [contents_congr (hout files), contents_congr (hout files'), h]

/-- Entries that are copied elsewhere are there what they were. -/
theorem lookup_lay_entries {e : Path × Node} (he : e ∈ entries files root) (base : Files) :
    (Folder.lay root base (entries files root)).lookup (root ++ e.1) = files.lookup (root ++ e.1) := by
  have hlookup : files.lookup (root ++ e.1) = some e.2 := (mem_entries.1 he).2.2
  rw [hlookup]
  apply Folder.lookup_lay_of_mem he
  intro n hn
  have hn : files.lookup (root ++ e.1) = some n := (mem_entries.1 hn).2.2
  rw [hlookup] at hn
  exact (Option.some.inj hn).symm

/-- Where the source has something, or the recipe is not, the files that hold only the inputs hold
what the local files do. -/
theorem lookup_files (h : inputs driver files a = some i) {context : Path}
    (hcontext : a.context = some context) {r : Path} (hr : r ≠ []) (hname : isCacheFile r = false)
    (hrecipe : files.lookup (context ++ r) = none → context ++ r ≠ a.recipe) :
    i.files.lookup (context ++ r) = files.lookup (context ++ r) := by
  obtain ⟨rfl, -, hsource, -⟩ := inputs_eq_some h
  rw [hcontext] at hsource
  simp only [Inputs.files, hcontext, hsource, Option.map_some]
  cases hlookup : files.lookup (context ++ r) with
  | some n =>
    have hmem : (r, n) ∈ entries files context := mem_entries.2 ⟨hr, hname, hlookup⟩
    rw [lookup_lay_entries hmem, hlookup]
  | none =>
    rw [Folder.lookup_lay_of_not_mem, AList.lookup_insert_ne (hrecipe hlookup)]
    · rfl
    · intro e he heq
      have hmem : files.lookup (context ++ e.1) = some e.2 := (mem_entries.1 he).2.2
      rw [← heq, hlookup] at hmem
      cases hmem

theorem contents_files (h : inputs driver files a = some i) :
    contents i.files a.recipe = some i.recipe := by
  have hinsert : contents ((∅ : Files).insert i.args.recipe (.file 33188 i.recipe)) i.args.recipe =
      some i.recipe := by
    unfold contents
    rw [AList.lookup_insert]
  obtain ⟨rfl, hrecipe, hsource, -⟩ := inputs_eq_some h
  unfold Inputs.files
  split
  · next context es hcontext hes =>
    rw [hcontext, hes] at hsource
    cases hsource
    rcases lookup_lay_cases context (entries files context) i.args.recipe with ⟨e, he, heq⟩ | hout
    · rw [← hrecipe]
      apply contents_congr
      rw [heq, lookup_lay_entries he]
    · rw [contents_congr (hout _), hinsert]
  · exact hinsert

/-- After a download the inputs depend on the inputs before it only. -/
theorem Result.inputs_lay (hresult : Result result) (h : inputs driver files a = some i) :
    inputs driver (Folder.lay root files result) a =
      inputs driver (Folder.lay root i.files result) a := by
  obtain ⟨-, hrecipe, -, -⟩ := inputs_eq_some h
  apply inputs_congr
  · apply hresult.contents_lay_congr
    rw [hrecipe, contents_files h]
  · intro context hcontext r hr hname
    apply hresult.lookup_lay_congr
    refine (lookup_files h hcontext hr hname fun hnone heq => ?_).symm
    rw [← heq, contents, hnone] at hrecipe
    cases hrecipe

theorem inputs_lay_apart (h : inputs driver files a = some i)
    (hapart : Built.apart ⟨i, result⟩) :
    inputs driver (Folder.lay a.output files result) a = some i := by
  obtain ⟨rfl, -⟩ := inputs_eq_some h
  rw [← h]
  apply inputs_congr
  · apply contents_congr
    exact Folder.lookup_lay_of_not_mem (fun e he heq => (hapart e he).1 heq.symm) files
  · intro context hcontext r hr hname
    apply Folder.lookup_lay_of_not_mem
    intro e he heq
    apply (hapart e he).2 context hcontext
    show context <+: i.args.output ++ e.1
    rw [← heq]
    exact List.prefix_append context r

/-! ### The invariant -/

/-- What has been downloaded over files with the inputs `staged` is in `files`, and nothing else has happened to
the inputs. -/
def Downloaded (driver : Text) (a : Args) (staged : Inputs) (result : Entries) (files : Files) :
    Prop :=
  (∃ before, inputs driver before a = some staged ∧
    keepsInputs a (Folder.lay a.output before result) files = true) ∧
    ∀ e ∈ result, files.lookup (a.output ++ e.1) = some e.2

/-- The inputs after the download of a build. -/
def Laid (driver : Text) (a : Args) (b : Built) (i : Inputs) : Prop :=
  ∃ before, inputs driver before a = some b.inputs ∧
    inputs driver (Folder.lay a.output before b.result) a = some i

/-- The receipt is about the inputs and the outputs after the download of a build. -/
def Kept (driver : Text) (w : List Seen) (rc : Receipt) : Prop :=
  ∃ b a i es, Seen.built b ∈ w ∧ Result b.result ∧ Laid driver a b i ∧ (∀ e ∈ b.result, e ∈ es) ∧
    Seen.inputs i ∈ w ∧ i.fingerprint = some rc.inputs ∧
    Seen.outputs es ∈ w ∧ treeFingerprint es = some rc.outputs

/-- What a run has made sure of when it comes to a place. -/
def Pc.Sure (driver : Text) (w : List Seen) (files : Files) (a : Args) : Pc → Prop
  | .fingerprint | .unlink _ | .copyRecipe _ | .archive .. | .remote .. => True
  | .decide initial =>
      ∀ d, initial = some d →
        ∃ i, Seen.inputs i ∈ w ∧ inputs driver files a = some i ∧ i.fingerprint = some d
  | .check _ _ result => Result result
  | .download unchanged staged result rest =>
      Result result ∧ (unchanged = true → ∃ done, result = done ++ rest ∧
        Downloaded driver a staged done files)
  | .verify unchanged staged result =>
      Result result ∧ (unchanged = true → Downloaded driver a staged result files)
  | .recordInputs =>
      ∃ b, Seen.built b ∈ w ∧ Result b.result ∧ Downloaded driver a b.inputs b.result files
  | .recordOutputs digest =>
      ∃ b i, Seen.built b ∈ w ∧ Result b.result ∧ Laid driver a b i ∧
        (∀ e ∈ b.result, files.lookup (a.output ++ e.1) = some e.2) ∧
        Seen.inputs i ∈ w ∧ i.fingerprint = some digest
  | .write rc | .replace rc => Kept driver w rc

structure Inv (driver : Text) (root : Path) (w : List Seen) (s : State) : Prop where
  receipt : ∀ rc, s.receipt = some rc → Kept driver w rc
  active : ∀ r, s.active = some r → r.args.output = root ∧ r.pc.Sure driver w s.files r.args

theorem Kept.append {rc : Receipt} (h : Kept driver w rc) (v : List Seen) :
    Kept driver (w ++ v) rc := by
  obtain ⟨b, a, i, es, hb, hresult, hlaid, hall, hi, hin, ho, hout⟩ := h
  exact ⟨b, a, i, es, List.mem_append_left v hb, hresult, hlaid, hall, List.mem_append_left v hi, hin,
    List.mem_append_left v ho, hout⟩

theorem Pc.Sure.append {pc : Pc} (h : pc.Sure driver w files a) (v : List Seen) :
    pc.Sure driver (w ++ v) files a := by
  cases pc with
  | fingerprint | unlink | copyRecipe | archive | remote => trivial
  | decide initial =>
    intro d hd
    obtain ⟨i, hi, hrest⟩ := h d hd
    exact ⟨i, List.mem_append_left v hi, hrest⟩
  | check | download | verify => exact h
  | recordInputs =>
    obtain ⟨b, hb, hrest⟩ := h
    exact ⟨b, List.mem_append_left v hb, hrest⟩
  | recordOutputs digest =>
    obtain ⟨b, i, hb, hresult, hlaid, hall, hi, hrest⟩ := h
    exact ⟨b, i, List.mem_append_left v hb, hresult, hlaid, hall, List.mem_append_left v hi, hrest⟩
  | write rc | replace rc => exact Kept.append h v

section Steps

variable {s t : State} {r : Run}

theorem Inv.stopped (h : Inv driver root w s) (v : List Seen) (files : Files) :
    Inv driver root (w ++ v) { s with files := files, active := none } :=
  ⟨fun rc hrc => (h.receipt rc hrc).append v, fun r hr => by cases hr⟩

/-- A run goes to a place with what it has to be sure of there. -/
theorem Inv.goes (h : Inv driver root w s) (hactive : s.active = some r) (v : List Seen) {pc : Pc}
    {files : Files} (hpc : pc.Sure driver (w ++ v) files r.args) :
    Inv driver root (w ++ v) { s with files := files, active := some { r with pc := pc } } := by
  constructor
  · exact fun rc hrc => (h.receipt rc hrc).append v
  · rintro r' hr'
    cases hr'
    exact ⟨(h.active r hactive).1, hpc⟩

theorem mem_seen_inputs (h : inputs driver files a = some i) (w : List Seen) :
    Seen.inputs i ∈ w ++ (inputs driver files a).toList.map Seen.inputs := by
  rw [h]
  exact List.mem_append_right w (List.mem_singleton_self _)

theorem inputFingerprint_eq_some {d : Text} (h : inputFingerprint driver files a = some d) :
    ∃ i, inputs driver files a = some i ∧ i.fingerprint = some d := by
  obtain ⟨i, hi, hd⟩ := Option.bind_eq_some_iff.1 h
  exact ⟨i, hi, hd⟩

/-- The next entry comes. -/
theorem Downloaded.next {staged : Inputs} {done rest : Entries} {e : Path × Node}
    (h : Downloaded driver a staged done files) (hresult : Result (done ++ e :: rest)) :
    Downloaded driver a staged (done ++ [e]) (files.insert (a.output ++ e.1) e.2) := by
  obtain ⟨⟨before, hbefore, hkeeps⟩, hdone⟩ := h
  refine ⟨⟨before, hbefore, ?_⟩, fun e' he' => ?_⟩
  · rw [Folder.lay_append]
    exact keepsInputs_insert hkeeps (a.output ++ e.1) e.2
  rcases List.mem_append.1 he' with he' | he'
  · have hnodup := hresult.nodup
    rw [List.map_append, List.nodup_append] at hnodup
    have hne : e'.1 ≠ e.1 :=
      hnodup.2.2 e'.1 (List.mem_map_of_mem he') e.1 (List.mem_map_of_mem List.mem_cons_self)
    rw [AList.lookup_insert_ne fun heq => hne (List.append_cancel_left heq)]
    exact hdone e' he'
  · rw [List.mem_singleton.1 he']
    exact AList.lookup_insert _

/-- Another writer keeps the inputs and what has come. -/
theorem Downloaded.edited {staged : Inputs} {done es : Entries} (h : Downloaded driver a staged done files)
    (hinputs : keepsInputs a files files' = true) (houtputs : keepsOutputs a files files' es = true)
    (hes : ∀ e ∈ done, e ∈ es) : Downloaded driver a staged done files' := by
  obtain ⟨⟨before, hbefore, hkeeps⟩, hdone⟩ := h
  refine ⟨⟨before, hbefore, keepsInputs_trans hkeeps hinputs⟩, fun e he => ?_⟩
  rw [beq_iff_eq.1 (List.all_eq_true.1 houtputs e (hes e he))]
  exact hdone e he

theorem Inv.advance (h : Inv driver root w s) (hactive : s.active = some r)
    (hquiet : undisturbed driver s .next = true) (hstep : s.advance driver r = some t) :
    Inv driver root (w ++ s.seen driver .next) t := by
  have hsure := (h.active r hactive).2
  have hgoes : ∀ {pc : Pc} {files : Files}, pc.Sure driver (w ++ s.seen driver .next) files r.args →
      Inv driver root (w ++ s.seen driver .next)
        { s with files := files, active := some { r with pc := pc } } :=
    h.goes hactive (s.seen driver .next)
  have hstopped := h.stopped (s.seen driver .next)
  obtain ⟨a, policy, pc⟩ := r
  simp only [State.seen, undisturbed, hactive] at hgoes hstopped hquiet ⊢
  cases pc with
  | fingerprint =>
    cases hstep
    refine hgoes fun d hd => ?_
    obtain ⟨i, hi, hprint⟩ := inputFingerprint_eq_some hd
    exact ⟨i, mem_seen_inputs hi w, hi, hprint⟩
  | decide initial =>
    simp only [State.advance] at hstep
    split at hstep
    · cases hstep
      exact hstopped _
    · cases hstep
      exact hgoes trivial
  | unlink initial =>
    cases hstep
    constructor
    · intro rc hrc
      cases hrc
    · rintro r hr
      cases hr
      exact ⟨(h.active _ hactive).1, trivial⟩
  | copyRecipe initial =>
    simp only [State.advance] at hstep
    split at hstep
    · split at hstep
      · cases hstep
        exact hstopped _
      · cases hstep
        exact hgoes trivial
    · cases hstep
      exact hstopped _
  | archive initial recipe =>
    simp only [State.advance] at hstep
    split at hstep
    · cases hstep
      exact hgoes trivial
    · split at hstep
      · cases hstep
        exact hgoes trivial
      · cases hstep
        exact hstopped _
  | remote => cases hstep
  | check initial staged result =>
    cases hstep
    -- nothing has come yet, over the files that were copied
    refine hgoes ⟨hsure, fun hunchanged => ⟨[], rfl, ⟨mkdirs s.files a.output, ?_, keepsInputs_refl a _⟩,
      fun e he => absurd he List.not_mem_nil⟩⟩
    have hfinds : findsUnchanged driver s.files a initial = true := hunchanged
    simpa [hfinds] using hquiet
  | download unchanged staged result rest =>
    obtain ⟨hresult, hdown⟩ := hsure
    cases rest with
    | nil =>
      cases hstep
      refine hgoes ⟨hresult, fun hunchanged => ?_⟩
      obtain ⟨done, hdone, hdown⟩ := hdown hunchanged
      rwa [hdone, List.append_nil]
    | cons e rest =>
      cases hstep
      refine hgoes ⟨hresult, fun hunchanged => ?_⟩
      obtain ⟨done, hdone, hdown⟩ := hdown hunchanged
      -- an entry that comes is written over the files and over what stands for them
      exact ⟨done ++ [e], by rw [hdone, List.append_assoc]; rfl, hdown.next (hdone ▸ hresult)⟩
  | verify unchanged staged result =>
    obtain ⟨hresult, hdown⟩ := hsure
    simp only [State.advance] at hstep
    split at hstep
    · next harrived =>
      obtain ⟨harrived, hunchanged⟩ := Bool.and_eq_true_iff.1 harrived
      cases hstep
      -- the build succeeds here
      refine hgoes ⟨⟨staged, result⟩, ?_, hresult, hdown hunchanged⟩
      simp [harrived]
    · cases hstep
      exact hstopped _
  | recordInputs =>
    obtain ⟨b, hb, hresult, hdown⟩ := hsure
    simp only [State.advance] at hstep
    split at hstep
    · cases hstep
      exact hstopped _
    · next digest hdigest =>
      cases hstep
      obtain ⟨i, hi, hprint⟩ := inputFingerprint_eq_some hdigest
      -- the inputs that are fingerprinted are those of the build with its download
      obtain ⟨⟨before, hbefore, hkeeps⟩, hdone⟩ := hdown
      exact hgoes ⟨b, i, List.mem_append_left _ hb, hresult,
        ⟨before, hbefore, (inputs_of_keepsInputs hkeeps).trans hi⟩, hdone, mem_seen_inputs hi w, hprint⟩
  | recordOutputs digest =>
    obtain ⟨b, i, hb, hresult, hlaid, hdone, hi, hprint⟩ := hsure
    simp only [State.advance] at hstep
    split at hstep
    · cases hstep
      exact hstopped _
    · next outputs houtputs =>
      cases hstep
      exact hgoes ⟨b, a, i, entries s.files a.output, List.mem_append_left _ hb, hresult, hlaid,
        fun e he => mem_entries.2 ⟨(hresult.names e he).1, (hresult.names e he).2, hdone e he⟩,
        List.mem_append_left _ hi, hprint, List.mem_append_right w (List.mem_singleton_self _), houtputs⟩
  | write rc =>
    cases hstep
    exact hgoes (Kept.append hsure _)
  | replace rc =>
    simp only [State.advance] at hstep
    split at hstep
    · cases hstep
      constructor
      · intro rc' hrc'
        cases hrc'
        exact Kept.append hsure _
      · intro r hr
        cases hr
    · cases hstep
      exact hstopped _

/-- Another writer leaves what a run is sure of, where it is allowed. -/
theorem Inv.edited (h : Inv driver root w s) {files : Files}
    (hquiet : undisturbed driver s (.edit files) = true) :
    Inv driver root w { s with files := files } := by
  refine ⟨h.receipt, fun r hr => ⟨(h.active r hr).1, ?_⟩⟩
  have hsure := (h.active r hr).2
  have hr : s.active = some r := hr
  obtain ⟨a, policy, pc⟩ := r
  simp only [undisturbed, hr] at hquiet
  cases pc with
  | fingerprint | unlink | copyRecipe | archive | remote => trivial
  | decide initial =>
    intro d hd
    obtain ⟨i, hi, hinputs, hprint⟩ := hsure d hd
    exact ⟨i, hi, (inputs_of_keepsInputs hquiet).symm.trans hinputs, hprint⟩
  | check => exact hsure
  | download unchanged staged result rest =>
    refine ⟨hsure.1, fun hunchanged => ?_⟩
    obtain ⟨done, hdone, hdown⟩ := hsure.2 hunchanged
    rw [hunchanged] at hquiet
    obtain ⟨hinputs, houtputs⟩ := Bool.and_eq_true_iff.1 hquiet
    refine ⟨done, hdone, hdown.edited hinputs houtputs fun e he => ?_⟩
    have hnodup := List.Nodup.of_map Prod.fst hsure.1.nodup
    rw [hdone] at hnodup ⊢
    refine List.mem_filter.2 ⟨List.mem_append_left rest he, decide_eq_true fun hrest => ?_⟩
    exact (List.nodup_append.1 hnodup).2.2 e he e hrest rfl
  | verify unchanged staged result =>
    refine ⟨hsure.1, fun hunchanged => ?_⟩
    rw [hunchanged] at hquiet
    obtain ⟨hinputs, houtputs⟩ := Bool.and_eq_true_iff.1 hquiet
    exact (hsure.2 hunchanged).edited hinputs houtputs fun _ he => he
  | recordInputs =>
    obtain ⟨b, hb, hresult, hdown⟩ := hsure
    obtain ⟨hinputs, houtputs⟩ := Bool.and_eq_true_iff.1 hquiet
    refine ⟨b, hb, hresult, hdown.edited hinputs houtputs fun e he => ?_⟩
    exact mem_entries.2 ⟨(hresult.names e he).1, (hresult.names e he).2, hdown.2 e he⟩
  | recordOutputs digest =>
    -- the inputs have their fingerprint already
    obtain ⟨b, i, hb, hresult, hlaid, hdone, hrest⟩ := hsure
    refine ⟨b, i, hb, hresult, hlaid, fun e he => ?_, hrest⟩
    have hmem := mem_entries.2 ⟨(hresult.names e he).1, (hresult.names e he).2, hdone e he⟩
    rw [beq_iff_eq.1 (List.all_eq_true.1 hquiet e hmem)]
    exact hdone e he
  | write | replace => exact hsure

theorem Inv.step (h : Inv driver root w s) {e : Event} (hquiet : undisturbed driver s e = true)
    (hstep : State.step driver root s e = some t) :
    Inv driver root (w ++ s.seen driver e) t := by
  cases e with
  | start args policy =>
    obtain ⟨⟨hroot, -⟩, heq⟩ := Option.ite_none_right_eq_some.1 hstep
    cases heq
    constructor
    · exact fun rc hrc => (h.receipt rc hrc).append _
    · rintro r hr
      cases hr
      exact ⟨hroot, trivial⟩
  | next =>
    simp only [State.step] at hstep
    split at hstep
    · cases hstep
    · next r hactive => exact h.advance hactive hquiet hstep
  | built result =>
    simp only [State.step] at hstep
    split at hstep
    · next args policy initial staged hactive =>
      obtain ⟨⟨hnodup, hnames, -⟩, heq⟩ := Option.ite_none_right_eq_some.1 hstep
      cases heq
      exact h.goes hactive [] ⟨hnodup, hnames⟩
    · cases hstep
  | stop =>
    obtain ⟨-, heq⟩ := Option.ite_none_left_eq_some.1 hstep
    cases heq
    exact h.stopped [] s.files
  | edit files =>
    cases hstep
    exact (List.append_nil w).symm ▸ h.edited hquiet
  | forget =>
    cases hstep
    refine ⟨fun rc hrc => (by cases hrc), fun r hr => ?_⟩
    obtain ⟨hroot, hsure⟩ := h.active r hr
    exact ⟨hroot, hsure.append _⟩

theorem Inv.initial (files : Files) : Inv driver root [] (.initial files) :=
  ⟨fun rc hrc => (by cases hrc), fun r hr => (by cases hr)⟩

theorem Inv.run {es : List Event}
    (hrun : Machine.run (State.step driver root) (.initial files) es = some s)
    (hquiet : Machine.Along (State.step driver root) (fun s e => undisturbed driver s e = true)
      (.initial files) es) : Inv driver root (observed driver root files es) s :=
  Machine.trace_invariant_along (fun _ _ _ _ h hquiet hstep => h.step hquiet hstep)
    (Inv.initial files) hquiet hrun

theorem observed_concat {es : List Event} {e : Event}
    (hrun : Machine.run (State.step driver root) (.initial files) es = some s) :
    ∀ x, x ∈ observed driver root files es ∨ x ∈ s.seen driver e →
      x ∈ observed driver root files (es ++ [e]) := by
  intro x hx
  rw [observed, Machine.trace_append hrun, List.mem_append]
  refine hx.imp id fun hx => ?_
  simp only [Machine.trace]
  exact List.mem_append_left _ hx

/-- What has been seen with one fingerprint is the same. -/
theorem Distinct.inputs_eq (h : Distinct w) {j : Inputs} {d : Text} (hi : Seen.inputs i ∈ w)
    (hj : Seen.inputs j ∈ w) (hfi : i.fingerprint = some d) (hfj : j.fingerprint = some d) :
    i = j := by
  have hclash := h _ hi _ hj
  simpa [Seen.clash, hfi, hfj] using hclash

theorem Distinct.outputs_eq (h : Distinct w) {es fs : Entries} {d : Text}
    (hes : Seen.outputs es ∈ w) (hfs : Seen.outputs fs ∈ w)
    (hfe : treeFingerprint es = some d) (hff : treeFingerprint fs = some d) : es = fs := by
  have hclash := h _ hes _ hfs
  simpa [Seen.clash, hfe, hff] using hclash

theorem reuses_eq_true {initial : Option Text} (h : reuses s r initial = true) :
    ∃ rc, candidate s r initial = some rc ∧ s.receipt = some rc ∧ initial = some rc.inputs ∧
      treeFingerprint (entries s.files r.args.output) = some rc.outputs := by
  unfold reuses at h
  split at h
  · cases h
  · next rc hrc =>
    refine ⟨rc, hrc, ?_⟩
    have hprint : treeFingerprint (entries s.files r.args.output) = some rc.outputs := by
      simpa using h
    unfold candidate at hrc
    split at hrc
    · next initial receipt hreceipt =>
      obtain ⟨⟨-, -, hinputs⟩, heq⟩ := Option.ite_none_right_eq_some.1 hrc
      cases heq
      exact ⟨hreceipt, congrArg some hinputs.symm, hprint⟩
    · cases hrc

end Steps

/-! ### What is reused -/

section Sample

def sampleArgs (inPlace : Bool) : Args where
  host := ['h']
  recipe := [['r']]
  context := some [['s']]
  output := if inPlace then [['s']] else [['o']]
  artifact := [[['x']]]
  inPlace := inPlace
  cpusPerTask := 4
  memory := ['m']
  time := ['t']
  sbatchOption := []

/-- A recipe, and a source directory with one file. -/
def sampleFiles (source : Text) : Files :=
  let files := ((∅ : Files).insert [] (.dir 16877)).insert [['r']] (.file 33188 ['m'])
  (files.insert [['s']] (.dir 16877)).insert [['s'], ['c']] (.file 33188 source)

def sampleResult : Entries := [([['x']], .file 33261 ['7'])]

/-- A run that builds, and the beginning of the next one. -/
def sampleBuild (inPlace : Bool) : List Event :=
  Event.start (sampleArgs inPlace) .changed :: (List.replicate 5 Event.next ++
    Event.built sampleResult :: (List.replicate 8 Event.next ++
      [Event.start (sampleArgs inPlace) .changed, Event.next]))

/-- A run during which the source is edited, one that is killed, and one that succeeds. -/
def sampleEvents : List Event :=
  Event.start (sampleArgs false) .changed :: (List.replicate 5 Event.next ++
    Event.edit (sampleFiles ['2']) :: Event.built sampleResult :: (List.replicate 4 Event.next ++
      Event.start (sampleArgs false) .changed :: Event.next :: Event.stop :: sampleBuild false))

/-- The decision of the active run. -/
def State.reusing (s : State) : Option (Run × Option Text) :=
  match s.active with
  | some ⟨a, policy, .decide initial⟩ =>
      if reuses s ⟨a, policy, .decide initial⟩ initial then
        some (⟨a, policy, .decide initial⟩, initial)
      else none
  | _ => none

theorem reusing_eq_some {s : State} {r : Run} {initial : Option Text}
    (h : s.reusing = some (r, initial)) :
    s.active = some r ∧ r.pc = .decide initial ∧ reuses s r initial = true := by
  unfold State.reusing at h
  split at h
  · next a policy initial' hactive =>
    obtain ⟨hreuse, heq⟩ := Option.ite_none_right_eq_some.1 h
    cases heq
    exact ⟨hactive, rfl, hreuse⟩
  · cases h

/-- The run ends with a decision to reuse, and no build of it has had the inputs that are there. -/
def endsStale (root : Path) (files : Files) (es : List Event) : Bool :=
  ((Machine.run (State.step [] root) (.initial files) es).bind fun s => s.reusing.map fun d =>
    (observed [] root files es).all fun x =>
      match x with
      | .built b => inputs [] s.files d.1.args != some b.inputs
      | _ => true) == some true

theorem exists_of_endsStale {root : Path} {files : Files} {es : List Event} (h : endsStale root files es = true) :
    ∃ s r initial, Machine.run (State.step [] root) (.initial files) es = some s ∧
      s.active = some r ∧ r.pc = .decide initial ∧ reuses s r initial = true ∧
      ∀ b, Seen.built b ∈ observed [] root files es → inputs [] s.files r.args ≠ some b.inputs := by
  obtain ⟨s, hrun, heq⟩ := Option.bind_eq_some_iff.1 (beq_iff_eq.1 h)
  obtain ⟨⟨r, initial⟩, hreusing, hall⟩ := Option.map_eq_some_iff.1 heq
  obtain ⟨hactive, hpc, hreuse⟩ := reusing_eq_some hreusing
  refine ⟨s, r, initial, hrun, hactive, hpc, hreuse, fun b hb => ?_⟩
  simpa using List.all_eq_true.1 hall _ hb

/-- A build into a folder of its own, with an edit of the source between the check and the download, and
the beginning of the next run. -/
def editedEvents : List Event :=
  Event.start (sampleArgs false) .changed :: (List.replicate 5 Event.next ++
    Event.built sampleResult :: Event.next :: Event.edit (mkdirs (sampleFiles ['2']) [['o']]) ::
      (List.replicate 7 Event.next ++ [Event.start (sampleArgs false) .changed, Event.next]))

/-- Nobody writes to the source and the recipe during or after an in-place build but the build itself;
its outputs are reused then, and no build has had the inputs that are there. -/
theorem reuse_downloaded :
    ∃ s r initial, Machine.run (State.step [] [['s']]) (.initial (sampleFiles ['1']))
        (sampleBuild true) = some s ∧
      s.active = some r ∧ r.pc = .decide initial ∧ reuses s r initial = true ∧
      ∀ b, Seen.built b ∈ observed [] [['s']] (sampleFiles ['1']) (sampleBuild true) →
        inputs [] s.files r.args ≠ some b.inputs :=
  exists_of_endsStale (by decide +kernel)

end Sample
end Build
end Slurmy
