/-
  TimedNet.Proofs.Text.Trim

  Trimming a text twice is trimming it once, and blanks that are put behind a text do not change
  what is left of it.
-/
import Mathlib.Data.List.DropRight
import TimedNet.Text.Blank

namespace TimedNet.Text

theorem trimChars_eq (cs : List Char) :
    trimChars cs = (cs.dropWhile isBlank).rdropWhile isBlank := rfl

/-- What is left of a run of characters is a part of it. -/
theorem trimChars_subset (cs : List Char) : trimChars cs ⊆ cs := by
  rw [trimChars_eq]
  exact List.Subset.trans (List.rdropWhile_prefix _ _).subset (List.dropWhile_subset _)

/-- A run that does not begin with a blank does not begin with one when its end is cut off. -/
theorem dropWhile_rdropWhile {cs : List Char} (h : cs.dropWhile isBlank = cs) :
    (cs.rdropWhile isBlank).dropWhile isBlank = cs.rdropWhile isBlank := by
  obtain ⟨tail, htail⟩ := cs.rdropWhile_prefix isBlank
  cases hcs : cs.rdropWhile isBlank with
  | nil => rfl
  | cons c rest =>
    rw [hcs] at htail
    rw [← htail, List.cons_append] at h
    have hc : isBlank c = false := by
      rw [← Bool.not_eq_true]
      intro hblank
      have hlen := congrArg List.length h
      rw [List.dropWhile_cons_of_pos hblank] at hlen
      have hle := (List.dropWhile_sublist (l := rest ++ tail) isBlank).length_le
      simp only [List.length_cons] at hlen
      omega
    exact List.dropWhile_cons_of_neg (by simp [hc])

theorem trimChars_trimChars (cs : List Char) : trimChars (trimChars cs) = trimChars cs := by
  rw [trimChars_eq, trimChars_eq, dropWhile_rdropWhile (List.dropWhile_idempotent _ _),
    List.rdropWhile_idempotent]

theorem trimChars_concat {c : Char} (hc : isBlank c = true) (cs : List Char) :
    trimChars (cs ++ [c]) = trimChars cs := by
  rw [trimChars_eq, trimChars_eq, List.dropWhile_append]
  split
  · next hall =>
    rw [List.isEmpty_iff.mp hall, List.dropWhile_cons_of_pos hc]
    rfl
  · rw [List.rdropWhile_concat_pos _ _ _ hc]

theorem toList_trim (s : String) : (trim s).toList = trimChars s.toList := String.toList_ofList

/-- A blank behind a text is trimmed off. -/
theorem trim_ofList_concat {c : Char} (hc : isBlank c = true) (cs : List Char) :
    trim (String.ofList (cs ++ [c])) = trim (String.ofList cs) := by
  rw [← String.toList_inj, toList_trim, toList_trim, String.toList_ofList, String.toList_ofList,
    trimChars_concat hc]

theorem trim_trim (s : String) : trim (trim s) = trim s := by
  rw [← String.toList_inj, toList_trim, toList_trim, trimChars_trimChars]

end TimedNet.Text
