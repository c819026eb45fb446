import LuaBundle.Project.Resolver

/-!
# Searches that keep their answers

What a search has learnt about directories is only ever added to.  A search that succeeded
therefore gives the same answer again whatever was learnt after it, and learns nothing more.
-/

namespace LuaBundle

/-!
## Paths and tables

Equality of paths is equality of their components, not of their spelling.
-/

theorem Path.beq_iff {p q : Path} : (p == q) = true ↔ p.components = q.components := by
  change (p.components == q.components) = true ↔ _
  exact beq_iff_eq

instance : EquivBEq Path where
  rfl := Path.beq_iff.mpr rfl
  symm h := Path.beq_iff.mpr (Path.beq_iff.mp h).symm
  trans h h' := Path.beq_iff.mpr ((Path.beq_iff.mp h).trans (Path.beq_iff.mp h'))

theorem lookup_append_of_some [BEq α] {a : α} {b : β} {front : List (α × β)}
    (back : List (α × β)) (h : front.lookup a = some b) :
    (front ++ back).lookup a = some b := by
  rw [List.lookup_append, h, Option.some_or]

theorem lookup_of_isPrefix [BEq α] {a : α} {b : β} {front whole : List (α × β)}
    (hgrown : front <+: whole) (h : front.lookup a = some b) : whole.lookup a = some b := by
  rcases hgrown with ⟨back, rfl⟩
  exact lookup_append_of_some back h

theorem lookup_eq_none_of_beq [BEq α] {a : α} {pairs : List (α × β)} :
    pairs.lookup a = none ↔ ∀ pair ∈ pairs, (a == pair.1) = false := by
  induction pairs with
  | nil => simp
  | cons pair rest ih =>
      rcases pair with ⟨c, b⟩
      cases hc : a == c with
      | true => simp [List.lookup_cons, hc]
      | false => simp [List.lookup_cons, hc, ih]

theorem mem_of_lookup [BEq α] {a : α} {b : β} {pairs : List (α × β)}
    (h : pairs.lookup a = some b) : ∃ c, (c, b) ∈ pairs ∧ (a == c) = true := by
  induction pairs with
  | nil => simp at h
  | cons pair rest ih =>
      rcases pair with ⟨c, b'⟩
      rw [List.lookup_cons] at h
      cases hc : a == c with
      | true =>
          simp only [hc, Option.some.injEq] at h
          exact ⟨c, by simp [h], hc⟩
      | false =>
          simp only [hc] at h
          rcases ih h with ⟨c', hmem, hc'⟩
          exact ⟨c', by simp [hmem], hc'⟩

/-!
## Running a search
-/

theorem search_bind (search : Search α) (next : α → Search β) (known : Known) :
    (search >>= next) known =
      match search known with
      | (.ok a, between) => next a between
      | (.error e, between) => (.error e, between) := by
  simp only [bind, ExceptT.bind, ExceptT.mk, ExceptT.bindCont, StateT.bind]
  rcases search known with ⟨outcome, between⟩
  cases outcome <;> rfl

theorem search_bind_ok {search : Search α} {next : α → Search β} {known known' : Known}
    {b : β} (h : (search >>= next) known = (.ok b, known')) :
    ∃ a between, search known = (.ok a, between) ∧ next a between = (.ok b, known') := by
  rw [search_bind] at h
  rcases hrun : search known with ⟨outcome, between⟩
  rw [hrun] at h
  cases outcome with
  | error e => cases h
  | ok a => exact ⟨a, between, rfl, h⟩

/-!
## Settled searches
-/

/-- A search whose answer stays when more is known. -/
structure Settled (search : Search α) : Prop where
  grows : ∀ {known answer known'}, search known = (.ok answer, known') → known <+: known'
  stays : ∀ {known answer known' whole}, search known = (.ok answer, known') →
    known' <+: whole → search whole = (.ok answer, whole)

theorem settled_pure (a : α) : Settled (pure a : Search α) where
  grows h := by
    cases h
    exact List.prefix_refl _
  stays h _ := by
    cases h
    rfl

theorem settled_lift (e : Except BundleError α) : Settled (liftM e : Search α) where
  grows h := by
    cases e <;> cases h
    exact List.prefix_refl _
  stays h _ := by
    cases e <;> cases h
    rfl

theorem Settled.bind {search : Search α} {next : α → Search β} (hsearch : Settled search)
    (hnext : ∀ a, Settled (next a)) : Settled (search >>= next) := by
  constructor
  · intro known answer known' h
    rcases search_bind_ok h with ⟨a, between, hfirst, hsecond⟩
    exact (hsearch.grows hfirst).trans ((hnext a).grows hsecond)
  · intro known answer known' whole h hwhole
    rcases search_bind_ok h with ⟨a, between, hfirst, hsecond⟩
    have hfirst' := hsearch.stays hfirst (((hnext a).grows hsecond).trans hwhole)
    rw [search_bind, hfirst']
    exact (hnext a).stays hsecond hwhole

def Gives (search : Search α) (P : α → Prop) : Prop :=
  ∀ known a known', search known = (.ok a, known') → P a

theorem gives_pure {a : α} {P : α → Prop} (h : P a) : Gives (pure a : Search α) P := by
  intro known b known' hrun
  cases hrun
  exact h

theorem gives_lift {e : Except BundleError α} {P : α → Prop} (h : ∀ a, e = .ok a → P a) :
    Gives (liftM e : Search α) P := by
  intro known a known' hrun
  cases e <;> cases hrun
  exact h a rfl

theorem Gives.bind {search : Search α} {next : α → Search β} {P : α → Prop} {Q : β → Prop}
    (hsearch : Gives search P) (hnext : ∀ a, P a → Gives (next a) Q) :
    Gives (search >>= next) Q := by
  intro known b known' hrun
  rcases search_bind_ok hrun with ⟨a, between, hfirst, hsecond⟩
  exact hnext a (hsearch _ _ _ hfirst) _ _ _ hsecond

/-!
## The searches of a resolver
-/

theorem knownPackage_eq (fs : FileSystem) (name : String) (directory : Path) (known : Known) :
    knownPackage fs name directory known =
      match known.lookup directory with
      | some package => (.ok package, known)
      | none =>
          match Package.read fs name directory with
          | .ok package => (.ok package, known ++ [(directory, package)])
          | .error e => (.error e, known) := by
  change (match known.lookup directory with
    | some package => (pure package : Search (Option Package))
    | none => _) known = _
  cases known.lookup directory with
  | some package => rfl
  | none => cases Package.read fs name directory <;> rfl

theorem known_of_knownPackage {fs : FileSystem} {name : String} {directory : Path}
    {known known' : Known} {package : Option Package}
    (h : knownPackage fs name directory known = (.ok package, known')) :
    known'.lookup directory = some package ∧
      (known' = known ∨ known' = known ++ [(directory, package)] ∧
        Package.read fs name directory = .ok package) := by
  rw [knownPackage_eq] at h
  cases hlookup : known.lookup directory with
  | some found =>
      rw [hlookup] at h
      cases h
      exact ⟨hlookup, Or.inl rfl⟩
  | none =>
      rw [hlookup] at h
      cases hread : Package.read fs name directory with
      | error e =>
          rw [hread] at h
          cases h
      | ok found =>
          rw [hread] at h
          cases h
          exact ⟨by simp [List.lookup_append, hlookup], Or.inr ⟨rfl, rfl⟩⟩

theorem settled_knownPackage (fs : FileSystem) (name : String) (directory : Path) :
    Settled (knownPackage fs name directory) := by
  constructor
  · intro known answer known' h
    rcases (known_of_knownPackage h).2 with rfl | ⟨rfl, _⟩
    · exact List.prefix_refl _
    · exact List.prefix_append _ _
  · intro known answer known' whole h hwhole
    rw [knownPackage_eq, lookup_of_isPrefix hwhole (known_of_knownPackage h).1]

/-- What holds of looking up packages, and of every sequence of searches it holds of, holds of
the search for a module. -/
theorem resolve_induction {P : ∀ {α : Type}, Search α → Prop} {fs : FileSystem}
    (hpure : ∀ {α : Type} (a : α), P (pure a : Search α))
    (hlift : ∀ {α : Type} (e : Except BundleError α), P (liftM e : Search α))
    (hbind : ∀ {α β : Type} {search : Search α} {next : α → Search β},
      P search → (∀ a, P (next a)) → P (search >>= next))
    (hknown : ∀ name directory, P (knownPackage fs name directory))
    (resolver : Resolver) (requester : Location) (module : String) :
    P (resolver.resolve fs requester module) := by
  have hfirst : ∀ roots, P (firstPackage fs module roots) := by
    intro roots
    induction roots with
    | nil => exact hpure none
    | cons root roots ih =>
        apply hbind (hknown module _)
        intro package
        cases package with
        | some package => exact hpure (some package)
        | none => exact ih
  apply hbind (hlift _)
  intro script
  cases script with
  | some script => exact hpure (some script)
  | none =>
      apply hbind (hfirst _)
      intro package
      cases package with
      | none => exact hpure none
      | some package => exact hbind (hlift _) fun script => hpure (some script)

theorem settled_resolve (resolver : Resolver) (fs : FileSystem) (requester : Location)
    (module : String) : Settled (resolver.resolve fs requester module) :=
  resolve_induction settled_pure settled_lift Settled.bind (settled_knownPackage fs) resolver
    requester module

/-!
## What is known
-/

/-- Whether what is known about directories is what their manifests say. -/
def Known.IsSound (fs : FileSystem) (known : Known) : Prop :=
  ∀ entry ∈ known, ∃ name, Package.read fs name entry.1 = .ok entry.2

/-- A search that only learns what manifests say. -/
structure Learns (fs : FileSystem) (search : Search α) : Prop where
  keeps : ∀ {known answer known'}, search known = (.ok answer, known') →
    Known.IsSound fs known → Known.IsSound fs known'

theorem learns_pure (fs : FileSystem) (a : α) : Learns fs (pure a : Search α) := by
  constructor
  intro known answer known' h hsound
  cases h
  exact hsound

theorem learns_lift (fs : FileSystem) (e : Except BundleError α) :
    Learns fs (liftM e : Search α) := by
  constructor
  intro known answer known' h hsound
  cases e <;> cases h
  exact hsound

theorem Learns.bind {fs : FileSystem} {search : Search α} {next : α → Search β}
    (hsearch : Learns fs search) (hnext : ∀ a, Learns fs (next a)) :
    Learns fs (search >>= next) := by
  constructor
  intro known answer known' h hsound
  rcases search_bind_ok h with ⟨a, between, hfirst, hsecond⟩
  exact (hnext a).keeps hsecond (hsearch.keeps hfirst hsound)

theorem learns_knownPackage (fs : FileSystem) (name : String) (directory : Path) :
    Learns fs (knownPackage fs name directory) := by
  constructor
  intro known answer known' h hsound
  rcases (known_of_knownPackage h).2 with rfl | ⟨rfl, hread⟩
  · exact hsound
  · intro entry hentry
    rcases List.mem_append.mp hentry with hentry | hentry
    · exact hsound entry hentry
    · rw [List.mem_singleton.mp hentry]
      exact ⟨name, hread⟩

theorem learns_resolve (resolver : Resolver) (fs : FileSystem) (requester : Location)
    (module : String) : Learns fs (resolver.resolve fs requester module) :=
  resolve_induction (learns_pure fs) (learns_lift fs) Learns.bind (learns_knownPackage fs)
    resolver requester module

/-!
## Where answers lie
-/

def Location.IsCanonical (fs : FileSystem) (script : Location) : Prop :=
  ∃ p, fs.canonicalize p = .ok script.path

def Location.IsFound (fs : FileSystem) (script : Location) : Prop :=
  ∃ p package, Location.ofPath fs p package = .ok script

theorem canonicalize_of_ofPath {fs : FileSystem} {p : Path} {package : Option Package}
    {script : Location} (h : Location.ofPath fs p package = .ok script) :
    fs.canonicalize p = .ok script.path ∧ script.directory = directoryOf script.path := by
  cases hcanonical : fs.canonicalize p with
  | error e =>
      rw [Location.ofPath, canonical, hcanonical] at h
      cases h
  | ok q =>
      rw [Location.ofPath, canonical, hcanonical] at h
      cases h
      exact ⟨rfl, rfl⟩

theorem Location.IsFound.canonical {fs : FileSystem} {script : Location} (h : script.IsFound fs) :
    script.IsCanonical fs := by
  rcases h with ⟨p, package, hpath⟩
  exact ⟨p, (canonicalize_of_ofPath hpath).1⟩

theorem Location.IsFound.directory_eq {fs : FileSystem} {script : Location}
    (h : script.IsFound fs) : script.directory = directoryOf script.path := by
  rcases h with ⟨p, package, hpath⟩
  exact (canonicalize_of_ofPath hpath).2

theorem isFound_of_firstScript {fs : FileSystem}
    {candidates : List (Path × Option Package)} {script : Location}
    (h : firstScript fs candidates = .ok (some script)) : script.IsFound fs := by
  unfold firstScript at h
  split at h
  · cases h
  · rename_i p package _
    cases hpath : Location.ofPath fs p package with
    | error e => simp [hpath, Except.map] at h
    | ok found =>
        simp only [hpath, Except.map, Except.ok.injEq, Option.some.injEq] at h
        subst h
        exact ⟨p, package, hpath⟩

/-- Every script that a resolver finds is the one that some path leads to. -/
theorem gives_found (resolver : Resolver) (fs : FileSystem) (requester : Location)
    (module : String) :
    Gives (resolver.resolve fs requester module) fun answer =>
      ∀ script ∈ answer, Location.IsFound fs script := by
  refine Gives.bind (P := fun found : Option Location => ∀ script ∈ found, script.IsFound fs)
    (gives_lift ?_) ?_
  · rintro found hfound script hscript
    rw [Option.mem_def.mp hscript] at hfound
    exact isFound_of_firstScript hfound
  · intro found hfound
    cases found with
    | some script => exact gives_pure hfound
    | none =>
        refine Gives.bind (P := fun _ => True) (fun _ _ _ _ => trivial) ?_
        intro package _
        cases package with
        | none => exact gives_pure (by simp)
        | some package =>
            refine Gives.bind (P := fun script : Location => script.IsFound fs)
              (gives_lift ?_) ?_
            · intro script hscript
              exact ⟨_, _, hscript⟩
            · intro script hscript
              exact gives_pure (by simpa using hscript)

theorem gives_canonical (resolver : Resolver) (fs : FileSystem) (requester : Location)
    (module : String) :
    Gives (resolver.resolve fs requester module) fun answer =>
      ∀ script ∈ answer, Location.IsCanonical fs script := by
  intro known answer known' hrun script hscript
  exact (gives_found resolver fs requester module known answer known' hrun script hscript).canonical

end LuaBundle
