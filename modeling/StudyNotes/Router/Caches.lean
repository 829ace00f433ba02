/-
# Navigation does not depend on the caches

Between two calls on the manager any entries of `groupLruCache` and `pathLruCache` may be
evicted.  A cached Group object is the one of its group and a cached Path object
the one its group lists, whichever request put them there and however far that
request got, so what `navigation` does is a function of the request and of the
generated classes alone.
-/

import StudyNotes.Router.Requests

namespace StudyNotes.Router

open StudyNotes.Text StudyNotes.Run

/-- A call on the manager, or the loss of cache entries between two calls. -/
inductive CacheEvent
  | call (op : Op)
  | evict (keepGroup keepPath : Str → Bool)

namespace CacheEvent

def step (rt : Runtime) (m : RouterManager) : CacheEvent → RouterManager
  | .call op => Router.step rt m op
  | .evict keepGroup keepPath =>
      { m with
        groupLruCache := m.groupLruCache.evict keepGroup
        pathLruCache := m.pathLruCache.evict keepPath }

/-- The manager after the events, from its construction on. -/
def run (rt : Runtime) (events : List CacheEvent) : RouterManager :=
  after (step rt) {} events

/-- Every navigation is made with a context of the package. -/
def InPackage (package : Str) : CacheEvent → Prop
  | .call op => Router.InPackage package op
  | .evict _ _ => True

end CacheEvent

/-- The manager with the same request and nothing in its caches. -/
def RouterManager.emptied (m : RouterManager) : RouterManager :=
  { m with
    groupLruCache := { maxSize := m.groupLruCache.maxSize }
    pathLruCache := { maxSize := m.pathLruCache.maxSize } }

/-- A navigation made after `pre` does what it would do with both caches empty. -/
def CachesUnnoticed (rt : Runtime) (pre : List CacheEvent) : CacheEvent → Prop
  | .call (.navigation context) =>
      (navigation rt context (CacheEvent.run rt pre)).1 =
        (navigation rt context (CacheEvent.run rt pre).emptied).1
  | _ => True

section Invariant

variable {rt : Runtime} {context : Context} {package : Str} {m : RouterManager}

theorem Consistent.emptied (h : Consistent rt package m) : Consistent rt package m.emptied where
  request := h.request
  groups := LruCache.holds_empty _ _
  paths := LruCache.holds_empty _ _

theorem Consistent.cacheStep (h : Consistent rt package m) {e : CacheEvent}
    (he : e.InPackage package) : Consistent rt package (CacheEvent.step rt m e) := by
  cases e with
  | call op => exact h.step he
  | evict keepGroup keepPath =>
      exact ⟨h.request, h.groups.evict keepGroup, h.paths.evict keepPath⟩

/-- What `navigation` does follows from the bean it finds and the bundle. -/
theorem navigation_congr {m' : RouterManager}
    (hbean : (findBean rt context m).1 = (findBean rt context m').1)
    (hbundle : m.bundle = m'.bundle) :
    (navigation rt context m).1 = (navigation rt context m').1 := by
  have hframe := (findBean_sameRequest rt context m).bundle
  have hframe' := (findBean_sameRequest rt context m').bundle
  rw [navigation, navigation]
  cases hfind : findBean rt context m with
  | mk found m₁ =>
      cases hfind' : findBean rt context m' with
      | mk found' m₁' =>
          rw [hfind, hfind'] at hbean
          rw [hfind] at hframe
          rw [hfind'] at hframe'
          obtain rfl : found = found' := hbean
          cases found with
          | none => rfl
          | some bean =>
              have hextras : m₁.bundle = m₁'.bundle :=
                hframe.trans (hbundle.trans hframe'.symm)
              cases htype : bean.typeEnum with
              | activity => simp only [htype, hextras]
              | call => simp only [htype]

/-- With consistent caches the bean found is the one found with empty caches. -/
theorem Consistent.findBean_emptied (h : Consistent rt context.packageName m) :
    (Router.findBean rt context m).1 = (Router.findBean rt context m.emptied).1 := by
  cases hpath : m.path with
  | some path =>
      obtain ⟨g, hg, -⟩ := h.request path hpath
      have hempty : m.emptied.path = some path := hpath
      rw [(h.findBean hpath hg).1, (h.emptied.findBean hempty hg).1]
  | none =>
      have hempty : m.emptied.path = none := hpath
      rw [findBean_of_path_none hpath, findBean_of_path_none hempty]

end Invariant

/-- Over every run within one package, with any loss of cache entries between the calls,
each navigation starts the Activity, returns the Call or does nothing just as it would
with both caches empty. -/
theorem everyStep_cachesUnnoticed (rt : Runtime) (package : Str) (events : List CacheEvent)
    (hpackage : ∀ e ∈ events, e.InPackage package) :
    EveryStep (CachesUnnoticed rt) events := by
  have hconsistent : EveryPrefix (fun pre => Consistent rt package (CacheEvent.run rt pre))
      events := by
    have hstep : EveryStep (fun _ e => e.InPackage package) events :=
      fun pre e hpre => hpackage e (hpre.subset (by simp))
    refine EveryPrefix.of_step (consistent_initial rt package) ?_ hstep
    intro pre e he hpre
    rw [CacheEvent.run, after_append_singleton]
    exact hpre.cacheStep he
  intro pre e hpre
  have hbefore := hconsistent pre ((List.prefix_append pre [e]).trans hpre)
  cases e with
  | evict keepGroup keepPath => trivial
  | call op =>
      cases op with
      | build path => trivial
      | withExtra c => trivial
      | navigation context =>
          obtain rfl : context.packageName = package :=
            hpackage (.call (.navigation context)) (hpre.subset (by simp))
          exact navigation_congr hbefore.findBean_emptied rfl

/-- Two visits with every Group object lost in between, and then an unknown path. -/
def visits : List CacheEvent :=
  [.call (.build "/app/Main".toList), .call (.navigation ⟨"app".toList⟩),
    .evict (fun _ => false) (fun _ => true), .call (.navigation ⟨"app".toList⟩),
    .call (.build "/app/Other".toList), .call (.navigation ⟨"app".toList⟩)]

theorem everyStep_cachesUnnoticed_visits :
    EveryStep (CachesUnnoticed oneActivity) visits ∧
      (navigation oneActivity ⟨"app".toList⟩ (CacheEvent.run oneActivity (visits.take 3))).1 =
        .startActivity "Main".toList .empty := by
  constructor
  · apply everyStep_cachesUnnoticed oneActivity "app".toList
    simp [visits, CacheEvent.InPackage, InPackage]
  · rfl

end StudyNotes.Router
