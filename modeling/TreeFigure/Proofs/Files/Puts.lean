import Mathlib.Data.List.Nodup
import TreeFigure.Proofs.Files.Lawful

/-!
Files in memory after many contents were put. The last content of each name counts, so a content
may be put again as long as its name was left alone, and contents of different names may be put in
any order.
-/

namespace TreeFigure.Store

/-- The stores hold the same and refuse the same; the order of their files may differ. -/
structure Same (store other : Store) : Prop where
  get? : ∀ name, store.get? name = other.get? name
  unwritable : store.unwritable = other.unwritable
  broken : store.broken = other.broken

/-- Puts each content under its name, the first one first. -/
def putAll (store : Store) (entries : List (String × List UInt8)) : Store :=
  entries.foldl (fun held entry => held.put entry.1 entry.2) store

theorem putAll_append (store : Store) (entries others : List (String × List UInt8)) :
    store.putAll (entries ++ others) = (store.putAll entries).putAll others :=
  List.foldl_append

theorem unwritable_putAll (store : Store) (entries : List (String × List UInt8)) :
    (store.putAll entries).unwritable = store.unwritable := by
  induction entries generalizing store with
  | nil => rfl
  | cons entry rest ih => exact ih (store.put entry.1 entry.2)

theorem broken_putAll (store : Store) (entries : List (String × List UInt8)) :
    (store.putAll entries).broken = store.broken := by
  induction entries generalizing store with
  | nil => rfl
  | cons entry rest ih => exact ih (store.put entry.1 entry.2)

/-- A name holds what was put there last. -/
theorem get?_putAll (store : Store) (entries : List (String × List UInt8)) (name : String) :
    (store.putAll entries).get? name = (entries.reverse.lookup name).or (store.get? name) := by
  induction entries generalizing store with
  | nil => rfl
  | cons entry rest ih =>
    obtain ⟨held, content⟩ := entry
    have hrest : (store.putAll ((held, content) :: rest)).get? name =
        (rest.reverse.lookup name).or ((store.put held content).get? name) := ih _
    rw [hrest, get?_put, List.reverse_cons, List.lookup_append, Option.or_assoc,
      lookup_cons_eq_ite]
    split
    case isTrue => rfl
    case isFalse => rfl

/-- Stores are the same if for each name the same was put last. -/
theorem same_putAll (store : Store) {entries others : List (String × List UInt8)}
    (h : ∀ name, entries.reverse.lookup name = others.reverse.lookup name) :
    (store.putAll entries).Same (store.putAll others) where
  get? name := by rw [get?_putAll, get?_putAll, h name]
  unwritable := by rw [unwritable_putAll, unwritable_putAll]
  broken := by rw [broken_putAll, broken_putAll]

theorem lookup_eq_of_perm {entries others : List (String × List UInt8)}
    (h : entries.Perm others) (hnodup : (entries.map Prod.fst).Nodup) (name : String) :
    entries.lookup name = others.lookup name := by
  induction h with
  | nil => rfl
  | cons entry _ ih =>
    rw [List.map_cons, List.nodup_cons] at hnodup
    rw [List.lookup_cons, List.lookup_cons, ih hnodup.2]
  | swap first second rest =>
    obtain ⟨held, content⟩ := first
    obtain ⟨other, bytes⟩ := second
    have hne : other ≠ held := by
      rintro rfl
      simp at hnodup
    rw [lookup_cons_eq_ite, lookup_cons_eq_ite, lookup_cons_eq_ite, lookup_cons_eq_ite]
    by_cases hname : name = held
    · rw [if_pos hname, if_neg (hname ▸ hne.symm), if_pos hname]
    · rw [if_neg hname, if_neg hname]
  | trans hfirst _ ihfirst ihsecond =>
    have hmiddle := (hfirst.map Prod.fst).nodup_iff.mp hnodup
    exact (ihfirst hnodup).trans (ihsecond hmiddle)

theorem same_putAll_of_perm (store : Store) {entries others : List (String × List UInt8)}
    (h : entries.Perm others) (hnodup : (entries.map Prod.fst).Nodup) :
    (store.putAll entries).Same (store.putAll others) := by
  apply same_putAll
  apply lookup_eq_of_perm
  · exact (List.reverse_perm entries).trans (h.trans (List.reverse_perm others).symm)
  · rw [List.map_reverse]
    exact List.nodup_reverse.mpr hnodup

/-- An entry may be put again as long as nothing else was put under its name. -/
theorem same_putAll_again (store : Store) (before between after : List (String × List UInt8))
    (entry : String × List UInt8) (h : entry.1 ∉ between.map Prod.fst) :
    (store.putAll (before ++ entry :: between ++ entry :: after)).Same
      (store.putAll (before ++ entry :: between ++ after)) := by
  apply same_putAll
  intro name
  obtain ⟨held, content⟩ := entry
  simp only [List.reverse_append, List.reverse_cons, List.append_assoc, List.lookup_append,
    lookup_cons_eq_ite]
  by_cases hname : name = held
  · subst hname
    have hbetween : between.reverse.lookup name = none := by
      rw [List.lookup_eq_none_iff]
      intro other hmem
      rw [bne_iff_ne]
      rintro rfl
      exact h (List.mem_map.mpr ⟨other, List.mem_reverse.mp hmem, rfl⟩)
    simp [hbetween]
  · simp [hname]

end TreeFigure.Store
