import Retarget.Proofs.Target.Stripping

/-!
# What reducing a target gives notice of

Reducing a target gives notice of two things: an option without a counterpart was
dropped, or a configuration keeps an old config of its own.  `Reduction.transform`
only keeps the wording; `Reduction.reduced` goes through the same steps and keeps
what each notice is about, so that others can word it their way.
-/

namespace Retarget

theorem Target.membersField?_removeField {key k : String} (t : Target) (h : key ≠ k) :
    (t.removeField k).membersField? key = t.membersField? key := by
  simp [membersField?, removeField, OrderedMap.get?_remove_of_ne h]

theorem Target.executor?_removeExecutor (t : Target) : t.removeExecutor.executor? = none := by
  simp [removeExecutor, removeField, executor?, stringField?, OrderedMap.get?_remove_self]

namespace Reduction

/-- Something to do by hand after a target was reduced. -/
inductive Notice where
  /-- an option without a counterpart was dropped, with what to do about it -/
  | dropped (message : String)
  /-- a configuration keeps an old config of its own -/
  | kept (configuration path : String)
  deriving DecidableEq, Repr

/-- The wording of a notice. -/
def Notice.text : Notice → String
  | dropped message => message
  | kept configuration path => unmergedOverride configuration path

variable (r : Reduction) (t : Target) (migrated : Option Location) (name : String)

/-- The place of the old config that the default options name. -/
def legacyPlace? : Option Location :=
  (r.legacyConfig? t).map fun p => (Path.mk p).location

/-- What reducing the default options gives notice of. -/
def baseNotices : List Notice :=
  (r.stripBase t).2.map .dropped

/-- One configuration released and stripped. -/
def variantReduced : Target :=
  (r.stripVariant (r.releaseOverride t name migrated).1 name).1

/-- What reducing one configuration gives notice of. -/
def variantNotices : List Notice :=
  ((r.releaseOverride t name migrated).2.map (.kept name)).toList ++
    (r.stripVariant (r.releaseOverride t name migrated).1 name).2.map .dropped

/-- Reduces one configuration and collects the notices. -/
def noticing (state : Target × List Notice) (name : String) : Target × List Notice :=
  (r.variantReduced state.1 migrated name, state.2 ++ r.variantNotices state.1 migrated name)

/-- A target whose default options and configurations were reduced, before it is
tidied, with the notices. -/
def reduced : Target × List Notice :=
  t.configurationNames.foldl (r.noticing (r.legacyPlace? t)) ((r.stripBase t).1, r.baseNotices t)

/-- Stripping the default options leaves the configurations alone. -/
theorem configurations?_stripBase :
    (r.stripBase t).1.configurations? = t.configurations? := by
  have kept (left : Members) :
      (if left.isEmpty then t.removeOptions else t.setOptions left).configurations? =
        t.configurations? := by
    split
    · exact t.membersField?_removeField (show "configurations" ≠ "options" by decide)
    · exact t.membersField?_setField _ (show "configurations" ≠ "options" by decide)
  unfold stripBase
  split
  · rfl
  · exact kept _

theorem executor?_variantReduced : (r.variantReduced t migrated name).executor? = t.executor? :=
  (r.stripVariant_apart _ name).1.trans (r.releaseOverride_apart t name migrated).1

/-- Notices that are there already stay in front. -/
theorem foldl_noticing (names : List String) (notices : List Notice) :
    names.foldl (r.noticing migrated) (t, notices) =
      ((names.foldl (r.noticing migrated) (t, [])).1,
        notices ++ (names.foldl (r.noticing migrated) (t, [])).2) := by
  induction names generalizing t notices with
  | nil => simp
  | cons name names ih =>
    rw [List.foldl_cons, List.foldl_cons, noticing, ih, noticing, ih _ ([] ++ _)]
    simp

theorem foldl_reduceVariant (names : List String) (state : Target × List Notice) :
    names.foldl (r.reduceVariant migrated) (state.1, state.2.map Notice.text) =
      ((names.foldl (r.noticing migrated) state).1,
        (names.foldl (r.noticing migrated) state).2.map Notice.text) := by
  induction names generalizing state with
  | nil => rfl
  | cons name names ih =>
    have hstep : r.reduceVariant migrated (state.1, state.2.map Notice.text) name =
        ((r.noticing migrated state name).1,
          (r.noticing migrated state name).2.map Notice.text) := by
      have htext : Notice.text ∘ Notice.kept name = unmergedOverride name := rfl
      have hdropped : Notice.text ∘ Notice.dropped = id := rfl
      simp [reduceVariant, noticing, variantReduced, variantNotices, hdropped,
        Option.toList_map, htext]
    rw [List.foldl_cons, List.foldl_cons, hstep, ih]

/-- Transforming a target is reducing it, tidying it and wording the notices. -/
theorem transform_eq :
    r.transform t = (tidy (r.reduced t).1, (r.reduced t).2.map Notice.text) := by
  have hnames : (r.stripBase t).1.configurationNames = t.configurationNames := by
    simp only [Target.configurationNames, configurations?_stripBase]
  have hbase : r.stripBase t = ((r.stripBase t).1, (r.baseNotices t).map Notice.text) := by
    have hdropped : Notice.text ∘ Notice.dropped = id := rfl
    simp [baseNotices, hdropped]
  have hfold := r.foldl_reduceVariant (r.legacyPlace? t) t.configurationNames
    ((r.stripBase t).1, r.baseNotices t)
  rw [← hbase] at hfold
  unfold transform
  simp only [hnames]
  rw [show (r.legacyConfig? t).map (fun p => (Path.mk p).location) = r.legacyPlace? t from rfl,
    hfold]
  rfl

end Reduction

end Retarget
