import Retarget.Json.Reader
import Retarget.Proofs.Disk.Places
import Retarget.Proofs.OrderedMap.Distinct

/-!
# Objects that hold no key twice

A JSON object leads each of its keys to one value.  `Json.Distinct` says so of an
object and of everything in it, and reading a text gives such values only
(`Json.distinct_of_ofText`): of two members with one key the later one counts.
-/

namespace Retarget.Json

/-- No object in a value holds a key twice. -/
inductive Distinct : Json → Prop
  | null : Distinct .null
  | bool (b : Bool) : Distinct (.bool b)
  | number (n : Number) : Distinct (.number n)
  | string (s : String) : Distinct (.string s)
  | array {xs : List Json} (items : ∀ x ∈ xs, Distinct x) : Distinct (.array xs)
  | object {ms : Members} (keys : ms.keys.Nodup) (values : ∀ x ∈ ms, Distinct x.2) :
      Distinct (.object ms)

theorem distinct_empty : (Json.object []).Distinct :=
  @Distinct.object [] .nil (by simp)

theorem Distinct.keys {ms : Members} (h : (Json.object ms).Distinct) : ms.keys.Nodup := by
  cases h with
  | object keys _ => exact keys

theorem Distinct.value {ms : Members} {x : String × Json} (h : (Json.object ms).Distinct)
    (hx : x ∈ ms) : x.2.Distinct := by
  cases h with
  | object _ values => exact values x hx

theorem distinct_object_iff {ms : Members} :
    (Json.object ms).Distinct ↔ ms.keys.Nodup ∧ ∀ x ∈ ms, x.2.Distinct :=
  ⟨fun h => ⟨h.keys, fun _ => h.value⟩, fun h => .object h.1 h.2⟩

/-- Fewer members of an object. -/
theorem Distinct.sublist {ms ns : Members} (h : (Json.object ms).Distinct)
    (hsub : ns.Sublist ms) : (Json.object ns).Distinct :=
  .object (h.keys.sublist (hsub.map _)) fun _ hx => h.value (hsub.subset hx)

/-- Writing a value without doubled keys. -/
theorem Distinct.insert {ms : Members} {k : String} {v : Json} (h : (Json.object ms).Distinct)
    (hv : v.Distinct) : (Json.object (OrderedMap.insert ms k v)).Distinct := by
  refine .object (OrderedMap.nodup_keys_insert h.keys k v) fun x hx => ?_
  rcases OrderedMap.mem_of_mem_insert hx with rfl | hx
  · exact hv
  · exact h.value hx

/-! ## What reading keeps -/

variable {σ : Type} {P : σ → Prop} {s t : σ} {n : Nat} {first : Bool} {cs rest : List Char}
  {text : String} {j : Json}

/-- What a visitor keeps is kept while items are read. -/
theorem readItems_keeps {visit : σ → List Char → Except Trouble (σ × List Char)}
    (hvisit : ∀ s cs t rest, P s → visit s cs = .ok (t, rest) → P t) (hs : P s)
    (h : readItems visit n first s cs = .ok (t, rest)) : P t := by
  induction n generalizing first s cs with
  | zero => cases h; exact hs
  | succ n ih =>
    -- one item, then those after it
    have step {r : List Char} (h : (visit s r >>= fun x => readItems visit n false x.1 x.2) =
        .ok (t, rest)) : P t := by
      obtain ⟨x, hx, h⟩ := ok_of_bind h
      exact ih (hvisit _ _ _ _ hs hx) h
    unfold readItems at h
    split at h
    · cases h
    · cases h; exact hs
    · split at h
      · exact step h
      · split at h
        · cases h
        · cases h
        · exact step h
    · split at h
      · exact step h
      · cases h

/-- What a visitor keeps is kept while members are read. -/
theorem readMembers_keeps {visit : σ → String → List Char → Except Trouble (σ × List Char)}
    (hvisit : ∀ s k cs t rest, P s → visit s k cs = .ok (t, rest) → P t) (hs : P s)
    (h : readMembers visit n first s cs = .ok (t, rest)) : P t := by
  induction n generalizing first s cs with
  | zero => cases h; exact hs
  | succ n ih =>
    -- one member, then those after it
    have step {r : List Char} (h : (readMember visit s r >>= fun x =>
        readMembers visit n false x.1 x.2) = .ok (t, rest)) : P t := by
      obtain ⟨x, hx, h⟩ := ok_of_bind h
      obtain ⟨k, -, hx⟩ := ok_of_bind hx
      exact ih (hvisit _ _ _ _ _ hs hx) h
    unfold readMembers at h
    split at h
    · cases h
    · cases h; exact hs
    · split at h
      · exact step h
      · cases h
    · split at h
      · cases h
      · split at h
        · cases h
        · exact step h
        · cases h
        · cases h
    · split at h
      · cases h
      · cases h

theorem readKeyword_value {α : Type} {v w : α} {ks : List Char}
    (h : readKeyword v ks cs = .ok (w, rest)) : w = v := by
  induction ks generalizing cs with
  | nil => cases h; rfl
  | cons k ks ih =>
    cases cs with
    | nil => cases h
    | cons c cs =>
      unfold readKeyword at h
      split at h
      · exact ih h
      · cases h

/-- A value that is read holds no key twice. -/
theorem distinct_of_readValue (h : readValue n cs = .ok (j, rest)) : j.Distinct := by
  induction n generalizing cs j rest with
  | zero => cases h
  | succ n ih =>
    unfold readValue at h
    split at h
    · cases h
    · rw [readKeyword_value h]; exact .null
    · rw [readKeyword_value h]; exact .bool true
    · rw [readKeyword_value h]; exact .bool false
    · obtain ⟨x, -, h⟩ := ok_of_bind h
      cases h; exact .number _
    · obtain ⟨s, -, h⟩ := ok_of_bind h
      cases h; exact .string _
    · split at h
      · cases h
      · obtain ⟨⟨xs, left⟩, hxs, h⟩ := ok_of_bind h
        obtain ⟨left, -, h⟩ := ok_of_bind h
        cases h
        have hitems : ∀ x ∈ xs, x.Distinct := by
          refine readItems_keeps (P := fun xs => ∀ x ∈ xs, Distinct x) ?_ (by simp) hxs
          intro xs cs ys rest hxs h
          obtain ⟨⟨y, left⟩, hy, h⟩ := ok_of_bind h
          cases h
          exact List.forall_mem_cons.mpr ⟨ih hy, hxs⟩
        exact .array fun x hx => hitems x (List.mem_reverse.mp hx)
    · split at h
      · cases h
      · obtain ⟨⟨ms, left⟩, hms, h⟩ := ok_of_bind h
        obtain ⟨left, -, h⟩ := ok_of_bind h
        cases h
        refine readMembers_keeps (P := fun ms => (Json.object ms).Distinct) ?_
          distinct_empty hms
        intro ms k cs ns rest hms h
        obtain ⟨left, -, h⟩ := ok_of_bind h
        obtain ⟨⟨v, left⟩, hv, h⟩ := ok_of_bind h
        cases h
        exact hms.insert (ih hv)
    · split at h
      · obtain ⟨x, -, h⟩ := ok_of_bind h
        cases h; exact .number _
      · cases h

/-- The value that a text holds has no object with a key twice. -/
theorem distinct_of_ofText (h : ofText text = .ok j) : j.Distinct := by
  unfold ofText readText at h
  split at h
  · next v hv =>
    cases h
    dsimp only at hv
    split at hv
    · next w hw =>
      cases hv
      obtain ⟨⟨w, rest⟩, hread, hend⟩ := ok_of_bind hw
      unfold readEnd at hend
      split at hend
      · cases hend
        exact distinct_of_readValue hread
      · cases hend
    · cases hv
  · cases h

end Retarget.Json
