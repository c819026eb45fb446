import LuaBundle.Proofs.Bundle.Reach
import LuaBundle.Proofs.Project.Small

/-!
# Charts of a project

Where a call leads depends on the location of its script only through the paths of the script
and of its package.  In a small project it does not depend on what has been learnt, either.  A
finite list of locations that is closed under calls then has all that can be reached, and tells
whether the project is unambiguous.
-/

namespace LuaBundle

open FileSystem Lua

/-!
## Answers of searches
-/

/-- Where a call leads if nothing has been learnt before. -/
def Explorer.answer (x : Explorer) (s : Location) (name : String) : Option Location :=
  (x.resolver.search x.files s name).toOption.join

section Answers

variable {x : Explorer} {fs : FileSystem} {resolver : Resolver} {s u : Location} {name : String}

theorem script?_shown (p : Path) {package package' : Option Package}
    (h : package.map Package.tag = package'.map Package.tag) :
    (fs.script? p package).map Location.shown = (fs.script? p package').map Location.shown := by
  unfold FileSystem.script?
  split
  · cases fs.canonicalize p with
    | error e => rfl
    | ok path => simp [Except.toOption, Location.shown, h]
  · rfl

theorem search_shown (h : s.shown = u.shown) :
    shown (resolver.search fs s name) = shown (resolver.search fs u name) := by
  have hdirectory : s.directory = u.directory := congrArg (fun place => place.2.1) h
  have hpackage : s.package.map Package.tag = u.package.map Package.tag :=
    congrArg (fun place => place.2.2) h
  have hscript : (resolver.script? fs s name).map Location.shown =
      (resolver.script? fs u name).map Location.shown := by
    unfold Resolver.script?
    dsimp only
    rw [Option.map_or, Option.map_or, Option.map_or, Option.map_or, hdirectory,
      script?_shown _ hpackage]
    rcases package_cases hpackage with ⟨hs, hu⟩ | ⟨package, package', hs, hu, htag⟩
    · rw [hs, hu]
    · have hmain : package.mainDir = package'.mainDir := congrArg Prod.snd htag
      have htags : (some package).map Package.tag = (some package').map Package.tag :=
        congrArg some htag
      rw [hs, hu, Option.bind_some, Option.bind_some, hmain, script?_shown _ htags]
  unfold Resolver.search
  cases hfound : resolver.script? fs s name with
  | none =>
      rw [hfound, Option.map_none, eq_comm, Option.map_eq_none_iff] at hscript
      rw [hscript]
  | some script =>
      rw [hfound, Option.map_some, eq_comm, Option.map_eq_some_iff] at hscript
      rcases hscript with ⟨script', hfound', hsame⟩
      rw [hfound']
      exact congrArg (fun place => Except.ok (some place)) hsame.symm

theorem toOption_shown {first second : Except BundleError (Option Location)}
    (h : shown first = shown second) :
    first.toOption.join.map Location.shown = second.toOption.join.map Location.shown := by
  rcases cases_of_map h with ⟨e, rfl, rfl⟩ | ⟨found, found', rfl, rfl, hsame⟩
  · rfl
  · exact hsame

theorem leadsTo_shown (hfs : x.files.HasWorkingDirectory) {known : Known}
    (hknown : Known.IsRead x.files known) (hshort : x.resolver.IsShortFor x.files name)
    (h : s.shown = u.shown) :
    (x.leadsTo known s name).map Location.shown = (x.answer u name).map Location.shown := by
  have hrun := (resolve_run hfs hknown s hshort).1.trans (search_shown h)
  unfold Explorer.leadsTo Explorer.answer
  generalize (x.resolver.resolve x.files s name known).1 = outcome at hrun ⊢
  rw [← toOption_shown hrun]
  cases outcome <;> rfl

end Answers

/-!
## Closed lists of locations
-/

def Explorer.asks (x : Explorer) (s : Location) : List String :=
  match x.files.read s.path with
  | .ok content => scriptAsks content
  | .error _ => []

def Location.spelled (s : Location) : String × String × Option (String × String) :=
  (s.path.spelling, s.directory.spelling,
    s.package.map fun package => (package.main.spelling, package.mainDir.spelling))

/-- Whether a list of locations has the entry, and with each location those that its calls lead
to, and locations of one script do not differ in where their calls lead. -/
structure Explorer.Charts (x : Explorer) (places : List Location) : Prop where
  entry : x.entry.spelled ∈ places.map Location.spelled
  short : ∀ s ∈ places, ∀ name ∈ x.asks s, x.resolver.IsShortFor x.files name
  closed : ∀ s ∈ places, ∀ name ∈ x.asks s, ∀ t ∈ x.answer s name,
    t.spelled ∈ places.map Location.spelled
  alike : ∀ s ∈ places, ∀ u ∈ places, s.path.spelling = u.path.spelling → ∀ name ∈ x.asks s,
    (x.answer s name).map (·.path.spelling) = (x.answer u name).map (·.path.spelling)

instance (x : Explorer) (places : List Location) : Decidable (x.Charts places) :=
  decidable_of_iff (x.entry.spelled ∈ places.map Location.spelled ∧
      (∀ s ∈ places, ∀ name ∈ x.asks s, x.resolver.IsShortFor x.files name) ∧
      (∀ s ∈ places, ∀ name ∈ x.asks s, ∀ t ∈ x.answer s name,
        t.spelled ∈ places.map Location.spelled) ∧
      ∀ s ∈ places, ∀ u ∈ places, s.path.spelling = u.path.spelling → ∀ name ∈ x.asks s,
        (x.answer s name).map (·.path.spelling) = (x.answer u name).map (·.path.spelling))
    ⟨fun h => ⟨h.1, h.2.1, h.2.2.1, h.2.2.2⟩, fun h => ⟨h.entry, h.short, h.closed, h.alike⟩⟩

section Charts

variable {x : Explorer} {places : List Location} {s t u : Location} {name : String}

theorem path_of_spelling {p q : Path} (h : p.spelling = q.spelling) : p = q := by
  cases p
  cases q
  exact congrArg Path.mk h

theorem shown_of_spelled (h : s.spelled = t.spelled) : s.shown = t.shown := by
  rcases s with ⟨path, directory, package⟩
  rcases t with ⟨path', directory', package'⟩
  simp only [Location.spelled, Prod.mk.injEq] at h
  rcases h with ⟨hpath, hdirectory, hpackage⟩
  have htag := congrArg (Option.map fun texts => (Path.mk texts.1, Path.mk texts.2)) hpackage
  rw [Option.map_map, Option.map_map] at htag
  rw [Location.shown, Location.shown, path_of_spelling hpath, path_of_spelling hdirectory]
  exact congrArg (fun tag => (path', directory', tag)) htag

theorem mem_asks {chunk : Chunk} {line : Nat} (hparse : x.parse s = .ok chunk)
    (hcall : .call (.module name line) ∈ blockStops chunk.body) (h : u.path = s.path) :
    name ∈ x.asks u := by
  rcases content_of_parse hparse with ⟨content, hread, hchunk⟩
  rw [Explorer.asks, h, hread]
  simp only [scriptAsks, hchunk]
  exact List.mem_filterMap.mpr ⟨_, hcall, rfl⟩

variable (hfs : x.files.HasWorkingDirectory) (hsmall : x.files.IsSmall)
  (hcharts : x.Charts places)
include hfs hsmall hcharts

theorem Explorer.Charts.reachable (h : x.Reachable s) : ∃ p ∈ places, s.shown = p.shown := by
  induction h with
  | entry =>
      rcases List.mem_map.mp hcharts.entry with ⟨p, hp, hspelled⟩
      exact ⟨p, hp, (shown_of_spelled hspelled).symm⟩
  | call hs hparse hcall hknown hleads ih =>
      rcases ih with ⟨p, hp, hsame⟩
      have hasks := mem_asks hparse hcall (congrArg Prod.fst hsame.symm)
      have hanswer := leadsTo_shown hfs (isRead_of_isSound hfs hsmall hknown)
        (hcharts.short p hp _ hasks) hsame
      rw [hleads, Option.map_some, eq_comm, Option.map_eq_some_iff] at hanswer
      rcases hanswer with ⟨t', ht', hshown⟩
      rcases List.mem_map.mp (hcharts.closed p hp _ hasks t' ht') with ⟨q, hq, hspelled⟩
      exact ⟨q, hq, hshown.symm.trans (shown_of_spelled hspelled).symm⟩

theorem unambiguous_of_charts (hproject : x.IsProject) : x.Unambiguous := by
  constructor
  intro s u chunk name line known known' hs hu hpath hparse hcall hknown hknown'
  have hspelling := path_eq_of_same hproject (hs.canonical hproject) (hu.canonical hproject) hpath
  rcases hcharts.reachable hfs hsmall hs with ⟨p, hp, hsp⟩
  rcases hcharts.reachable hfs hsmall hu with ⟨q, hq, huq⟩
  have hpp : p.path = s.path := congrArg Prod.fst hsp.symm
  have hqq : q.path = u.path := congrArg Prod.fst huq.symm
  have hasks := mem_asks hparse hcall hpp
  have hshort := hcharts.short p hp name hasks
  have hfirst := leadsTo_shown hfs (isRead_of_isSound hfs hsmall hknown) hshort hsp
  have hsecond := leadsTo_shown hfs (isRead_of_isSound hfs hsmall hknown') hshort huq
  have halike := hcharts.alike p hp q hq (by rw [hpp, hqq, hspelling]) name hasks
  have hpaths : ∀ o o' : Option Location, o.map Location.shown = o'.map Location.shown →
      o.map (·.path.components) = o'.map (·.path.components) := by
    intro o o' h
    have hmapped := congrArg (Option.map fun place => place.1.components) h
    rwa [Option.map_map, Option.map_map] at hmapped
  have hmiddle := congrArg (Option.map fun text => (Path.mk text).components) halike
  rw [Option.map_map, Option.map_map] at hmiddle
  exact (hpaths _ _ hfirst).trans (hmiddle.trans (hpaths _ _ hsecond).symm)

end Charts

end LuaBundle
