/-!
# Counts by name

A tally says how often something has happened to each name. Names that it does not hold count
zero, so clearing a name and never having counted it are the same to every reader.
-/

namespace ResourceSelection

/-- A count for each of finitely many names. -/
structure Tally where
  entries : List (String × Nat) := []
deriving DecidableEq, Repr

namespace Tally

/-- The count of a name, zero when the tally does not hold it. -/
def count (t : Tally) (name : String) : Nat := (t.entries.lookup name).getD 0

/-- The tally without a name. -/
def clear (t : Tally) (name : String) : Tally :=
  ⟨t.entries.filter fun entry => entry.1 != name⟩

/-- The tally with the count of a name set. -/
def set (t : Tally) (name : String) (n : Nat) : Tally := ⟨(name, n) :: (t.clear name).entries⟩

/-- The tally after one more count of a name. -/
def bump (t : Tally) (name : String) : Tally := t.set name (t.count name + 1)

theorem lookup_filter_of_ne {name other : String} (h : other ≠ name)
    (entries : List (String × Nat)) :
    (entries.filter fun entry => entry.1 != name).lookup other = entries.lookup other := by
  induction entries with
  | nil => rfl
  | cons entry rest ih =>
    obtain ⟨key, n⟩ := entry
    by_cases hkey : key = name
    · have hother : (other == key) = false := by simpa [hkey] using h
      simp only [hkey, List.filter_cons, bne_self_eq_false, Bool.false_eq_true, if_false, ih,
        List.lookup_cons]
      rw [← hkey, hother]
    · simp [hkey, List.lookup_cons, ih]

theorem lookup_filter_self (name : String) (entries : List (String × Nat)) :
    (entries.filter fun entry => entry.1 != name).lookup name = none := by
  induction entries with
  | nil => rfl
  | cons entry rest ih =>
    obtain ⟨key, n⟩ := entry
    by_cases hkey : key = name
    · simp [hkey, ih]
    · have hname : (name == key) = false := by simpa using fun h => hkey h.symm
      simp [hkey, List.lookup_cons, hname, ih]

@[simp] theorem count_clear_self (t : Tally) (name : String) : (t.clear name).count name = 0 := by
  rw [count, clear, lookup_filter_self, Option.getD_none]

theorem count_clear_of_ne (t : Tally) {name other : String} (h : other ≠ name) :
    (t.clear name).count other = t.count other := by
  rw [count, clear, lookup_filter_of_ne h, count]

@[simp] theorem count_set_self (t : Tally) (name : String) (n : Nat) :
    (t.set name n).count name = n := by
  simp [count, set]

theorem count_set_of_ne (t : Tally) {name other : String} (n : Nat) (h : other ≠ name) :
    (t.set name n).count other = t.count other := by
  have hne : (other == name) = false := by simpa using h
  rw [← count_clear_of_ne t h]
  simp [count, set, List.lookup_cons, hne]

end Tally

end ResourceSelection
