import Mathlib.Data.List.Induction
import Mathlib.Data.List.Nodup
import Mathlib.Data.List.Pairwise
import Retarget.Plugin
import Retarget.Proofs.OrderedMap.Distinct

/-!
# Classes by module

The classes of plugins are collected by module: each module is loaded once, and each class is
taken from a module once, however many plugins name it (`binds_imports`).  Nothing is said about
a class that plugins take from different modules, so such a class is bound more than once
(`Binds.nodup_iff`).
-/

namespace Retarget.PluginConfig

variable {x : Plugin} {xs : List Plugin} {ms : List (String × List String)} {moduleName : String}
  {classes : List String}

/-- The classes that plugins take from a module, each of them once. -/
structure Taken (xs : List Plugin) (moduleName : String) (classes : List String) : Prop where
  nodup : classes.Nodup
  mem_iff : ∀ n, n ∈ classes ↔ ∃ x ∈ xs, x.className = n ∧ x.moduleName = moduleName

/-- Each module is there once, with what plugins take from it, and so is the module of every
plugin. -/
structure Binds (xs : List Plugin) (ms : List (String × List String)) : Prop where
  modules : (ms.map Prod.fst).Nodup
  taken : ∀ m ∈ ms, m.2 ≠ [] ∧ Taken xs m.1 m.2
  required : ∀ x ∈ xs, ∃ m ∈ ms, m.1 = x.moduleName ∧ x.className ∈ m.2

/-- Another plugin of a module adds its class. -/
theorem Taken.add (h : Taken xs x.moduleName classes) :
    Taken (xs ++ [x]) x.moduleName
      (if classes.contains x.className then classes else classes ++ [x.className]) := by
  constructor
  · split
    · exact h.nodup
    · next hnew =>
      rw [← List.concat_eq_append]
      exact h.nodup.concat (by simpa using hnew)
  · intro n
    have hmem : n ∈ (if classes.contains x.className then classes else classes ++ [x.className]) ↔
        n ∈ classes ∨ x.className = n := by
      split
      · next hold =>
        refine ⟨Or.inl, ?_⟩
        rintro (hn | rfl)
        · exact hn
        · exact List.contains_iff_mem.mp hold
      · rw [List.mem_append, List.mem_singleton, eq_comm]
    rw [hmem, h.mem_iff]
    constructor
    · rintro (⟨y, hy, hclass⟩ | hclass)
      · exact ⟨y, List.mem_append_left _ hy, hclass⟩
      · exact ⟨x, List.mem_append_right _ List.mem_cons_self, hclass, rfl⟩
    · rintro ⟨y, hy, hclass, hmodule⟩
      rcases List.mem_append.mp hy with hy | hy
      · exact .inl ⟨y, hy, hclass, hmodule⟩
      · exact .inr (List.mem_singleton.mp hy ▸ hclass)

/-- A plugin takes nothing from other modules. -/
theorem Taken.of_ne (h : Taken xs moduleName classes) (hne : x.moduleName ≠ moduleName) :
    Taken (xs ++ [x]) moduleName classes := by
  refine ⟨h.nodup, fun n => ?_⟩
  rw [h.mem_iff]
  simp [hne]

/-- What is there of a module, or nothing, is what plugins take from it. -/
theorem Binds.taken_get? (h : Binds xs ms) (moduleName : String) :
    Taken xs moduleName ((OrderedMap.get? ms moduleName).getD []) := by
  cases hget : OrderedMap.get? ms moduleName with
  | some classes => exact (h.taken _ (OrderedMap.mem_of_get? hget)).2
  | none =>
    refine ⟨List.nodup_nil, fun n => ⟨fun hn => absurd hn List.not_mem_nil, ?_⟩⟩
    rintro ⟨x, hx, -, rfl⟩
    obtain ⟨m, hm, hmodule, -⟩ := h.required x hx
    rw [← hmodule, OrderedMap.get?_of_mem h.modules hm] at hget
    cases hget

/-- Another plugin adds its class to its module and leaves the other modules alone. -/
theorem Binds.addImport (h : Binds xs ms) (x : Plugin) :
    Binds (xs ++ [x]) (PluginConfig.addImport ms x) := by
  have htaken := (h.taken_get? x.moduleName).add
  have hmem {m : String × List String} : m ∈ PluginConfig.addImport ms x ↔ _ :=
    OrderedMap.mem_insert_iff h.modules
  refine ⟨OrderedMap.nodup_keys_insert h.modules _ _, ?_, ?_⟩
  · intro m hm
    rcases hmem.mp hm with rfl | ⟨hm, hne⟩
    · have hclass := (htaken.mem_iff _).mpr ⟨x, List.mem_append_right _ List.mem_cons_self, rfl, rfl⟩
      exact ⟨List.ne_nil_of_mem hclass, htaken⟩
    · obtain ⟨hsome, hothers⟩ := h.taken m hm
      exact ⟨hsome, hothers.of_ne hne.symm⟩
  · intro y hy
    by_cases hmodule : y.moduleName = x.moduleName
    · exact ⟨_, hmem.mpr (.inl rfl), hmodule.symm, (htaken.mem_iff _).mpr ⟨y, hy, rfl, hmodule⟩⟩
    · have hbefore : y ∈ xs := by
        rcases List.mem_append.mp hy with hy | hy
        · exact hy
        · exact absurd (by rw [List.mem_singleton.mp hy]) hmodule
      obtain ⟨m, hm, hsame, hclass⟩ := h.required y hbefore
      have hne : m.1 ≠ x.moduleName := by
        rw [hsame]
        exact hmodule
      exact ⟨m, hmem.mpr (.inr ⟨hm, hne⟩), hsame, hclass⟩

/-- The modules of a config bind the classes of its plugins. -/
theorem binds_imports (c : PluginConfig) : Binds c.plugins c.imports := by
  have hfold (xs : List Plugin) : Binds xs (xs.foldl PluginConfig.addImport []) := by
    induction xs using List.reverseRecOn with
    | nil => exact ⟨List.nodup_nil, by simp, by simp⟩
    | append_singleton xs x ih =>
      rw [List.foldl_append, List.foldl_cons, List.foldl_nil]
      exact ih.addImport x
  exact hfold c.plugins

/-- No two plugins take one class from different modules. -/
def OneSource (xs : List Plugin) : Prop :=
  ∀ x ∈ xs, ∀ y ∈ xs, x.className = y.className → x.moduleName = y.moduleName

/-- No class is bound twice just if no two plugins take one class from different modules. -/
theorem Binds.nodup_iff (h : Binds xs ms) : (ms.flatMap Prod.snd).Nodup ↔ OneSource xs := by
  rw [List.nodup_flatMap]
  constructor
  · rintro ⟨-, hdisjoint⟩ x hx y hy hclass
    obtain ⟨m, hm, hmodule, hxclass⟩ := h.required x hx
    obtain ⟨m', hm', hmodule', hyclass⟩ := h.required y hy
    by_contra hne
    have hother : m ≠ m' := by
      rintro rfl
      exact hne (hmodule.symm.trans hmodule')
    have hsymm : Std.Symm (Function.onFun List.Disjoint
        (Prod.snd : String × List String → List String)) :=
      ⟨fun _ _ hapart => List.disjoint_symm hapart⟩
    exact hdisjoint.forall hm hm' hother hxclass (hclass ▸ hyclass)
  · intro hsource
    refine ⟨fun m hm => (h.taken m hm).2.nodup, (List.pairwise_map.mp h.modules).imp_of_mem ?_⟩
    intro m m' hm hm' hne n hn hn'
    obtain ⟨x, hx, rfl, hmodule⟩ := ((h.taken m hm).2.mem_iff n).mp hn
    obtain ⟨y, hy, hclass, hmodule'⟩ := ((h.taken m' hm').2.mem_iff _).mp hn'
    exact hne (hmodule.symm.trans ((hsource x hx y hy hclass.symm).trans hmodule'))

/-- Then the class of a plugin is bound by one statement only. -/
theorem Binds.existsUnique (h : Binds xs ms) (hsource : OneSource xs) (hx : x ∈ xs) :
    ∃! m, m ∈ ms ∧ x.className ∈ m.2 := by
  obtain ⟨m, hm, hmodule, hclass⟩ := h.required x hx
  refine ⟨m, ⟨hm, hclass⟩, ?_⟩
  rintro m' ⟨hm', hclass'⟩
  obtain ⟨y, hy, hsame, hmodule'⟩ := ((h.taken m' hm').2.mem_iff _).mp hclass'
  have hmodules : m'.1 = m.1 := by
    rw [hmodule, ← hmodule', hsource y hy x hx hsame]
  exact List.inj_on_of_nodup_map h.modules hm' hm hmodules

end Retarget.PluginConfig
