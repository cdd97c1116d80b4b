import Vee.Lib.Strip

/- `vee::strmagic` (vee/helper/strmagic.h, helper/strmagic.cpp): `trim` and `split`.

   The searches of `std::string` give no position where nothing is found, and then
   `trim_left` and `trim_right` return the string as it is. So `trim` strips every string
   that has a character that is no blank, and leaves alone one that is all blanks
   (`trim_strips_iff`). -/
namespace Vee.Strmagic
open Strip

/-- `" \t\v\n"` -/
def blanks : List Char := [' ', '\t', '\x0b', '\n']

def isBlank (c : Char) : Bool := blanks.contains c

/-- `find_first_not_of`, none for `npos`. -/
def findFirstNotOf (str chars : List Char) : Option Nat := str.findIdx? fun c => !chars.contains c

/-- `find_last_not_of` -/
def findLastNotOf (str chars : List Char) : Option Nat :=
  (findFirstNotOf str.reverse chars).map fun k => str.length - 1 - k

/-- `substr` from a position of the string. -/
def substr (str : List Char) (pos count : Nat) : List Char := (str.drop pos).take count

def trimLeft (str : List Char) : List Char :=
  match findFirstNotOf str blanks with
  | none => str
  | some n => substr str n str.length

def trimRight (str : List Char) : List Char :=
  match findLastNotOf str blanks with
  | none => str
  | some n => substr str 0 (n + 1)

def trim (str : List Char) : List Char := trimLeft (trimRight str)

/-- `split`: `boost::char_separator` drops the separators and the empty tokens. -/
def split (string token : List Char) : List (List Char) := Pieces.pieces token.contains [] string

/-! ## The two halves -/

section
variable {s t : List Char}

theorem findFirstNotOf_none (h : ∀ c ∈ s, isBlank c = true) : findFirstNotOf s blanks = none := by
  refine List.findIdx?_eq_none_iff.mpr ?_
  intro c hc
  rw [← isBlank, h c hc]
  rfl

theorem findFirstNotOf_some (h : ∃ c ∈ s, isBlank c = false) :
    ∃ k < s.length, findFirstNotOf s blanks = some k ∧ s.dropWhile isBlank = s.drop k := by
  obtain ⟨c, hc, hb⟩ := h
  have hlt : s.findIdx (fun c => !isBlank c) < s.length :=
    List.findIdx_lt_length_of_exists ⟨c, hc, by simp [hb]⟩
  exact ⟨_, hlt, List.findIdx?_eq_some_iff_findIdx_eq.mpr ⟨hlt, rfl⟩,
    List.dropWhile_eq_drop_findIdx_not⟩

theorem trimLeft_of_blank (h : ∀ c ∈ s, isBlank c = true) : trimLeft s = s := by
  rw [trimLeft, findFirstNotOf_none h]

theorem trimRight_of_blank (h : ∀ c ∈ s, isBlank c = true) : trimRight s = s := by
  have hrev : ∀ c ∈ s.reverse, isBlank c = true := fun c hc => h c (List.mem_reverse.mp hc)
  rw [trimRight, findLastNotOf, findFirstNotOf_none hrev]
  rfl

theorem trimLeft_of_some (h : ∃ c ∈ s, isBlank c = false) :
    trimLeft s = s.dropWhile isBlank := by
  obtain ⟨k, -, hfind, hdrop⟩ := findFirstNotOf_some h
  rw [trimLeft, hfind, hdrop]
  exact List.take_of_length_le (by simp)

theorem trimRight_of_some (h : ∃ c ∈ s, isBlank c = false) :
    trimRight s = s.rdropWhile isBlank := by
  obtain ⟨k, hk, hfind, hdrop⟩ := findFirstNotOf_some (s := s.reverse) (by simpa using h)
  rw [List.length_reverse] at hk
  have hcount : s.length - 1 - k + 1 = s.length - k := by omega
  rw [trimRight, findLastNotOf, hfind, List.rdropWhile, hdrop, List.drop_reverse,
    List.reverse_reverse]
  show substr s 0 (s.length - 1 - k + 1) = _
  rw [substr, List.drop_zero, hcount]

/-! ## `trim` -/

/-- A string of blanks is returned as it is. -/
theorem trim_of_blank (h : ∀ c ∈ s, isBlank c = true) : trim s = s := by
  rw [trim, trimRight_of_blank h, trimLeft_of_blank h]

theorem trim_of_some (h : ∃ c ∈ s, isBlank c = false) : trim s = strip isBlank s := by
  obtain ⟨c, hc, hb⟩ := h
  have hkept : c ∈ s.rdropWhile isBlank := by
    have hmem := mem_strip hc hb
    exact (List.dropWhile_sublist _).mem hmem
  rw [trim, trimRight_of_some ⟨c, hc, hb⟩, trimLeft_of_some ⟨c, hkept, hb⟩, strip]

theorem blank_or_some (s : List Char) :
    (∀ c ∈ s, isBlank c = true) ∨ ∃ c ∈ s, isBlank c = false := by
  by_cases h : ∀ c ∈ s, isBlank c = true
  · exact .inl h
  · exact .inr (by simpa using h)

theorem trim_trim (s : List Char) : trim (trim s) = trim s := by
  rcases blank_or_some s with h | ⟨c, hc, hb⟩
  · rw [trim_of_blank h, trim_of_blank h]
  · have hkept : c ∈ strip isBlank s := mem_strip hc hb
    rw [trim_of_some ⟨c, hc, hb⟩, trim_of_some ⟨c, hkept, hb⟩, strip_strip]

theorem trimRight_trimLeft (s : List Char) : trimRight (trimLeft s) = trim s := by
  rcases blank_or_some s with h | ⟨c, hc, hb⟩
  · rw [trimLeft_of_blank h, trimRight_of_blank h, trim_of_blank h]
  · have hkept : c ∈ s.dropWhile isBlank := by
      have hmem := mem_strip hc hb
      rw [← strip_comm] at hmem
      exact (List.rdropWhile_prefix _ _).mem hmem
    rw [trimLeft_of_some ⟨c, hc, hb⟩, trimRight_of_some ⟨c, hkept, hb⟩, strip_comm,
      trim_of_some ⟨c, hc, hb⟩]

/-- `trim` gives the string without the blanks around it. -/
def Trims (s : List Char) : Prop :=
  Stripped isBlank s (trim s) ∧ (∀ t, Stripped isBlank s t → t = trim s) ∧
    trim (trim s) = trim s ∧ trimLeft (trimRight s) = trimRight (trimLeft s)

/-- **What `trim` strips.** The result is the one string without its surrounding blanks
exactly if there was nothing to strip or a character to keep. -/
theorem trim_strips_iff (s : List Char) : Trims s ↔ s = [] ∨ ∃ c ∈ s, isBlank c = false := by
  refine ⟨?_, ?_⟩
  · intro h
    obtain ⟨hstripped, -⟩ := h
    rcases blank_or_some s with hblank | hsome
    · -- the blanks are still there
      have hnil := hstripped.eq
      rw [strip_of_all hblank, trim_of_blank hblank] at hnil
      exact .inl hnil
    · exact .inr hsome
  · intro h
    have hstrip : trim s = strip isBlank s := by
      rcases h with rfl | hsome
      · rfl
      · exact trim_of_some hsome
    refine ⟨?_, ?_, trim_trim s, (trimRight_trimLeft s).symm⟩
    · rw [hstrip]
      exact stripped_strip s
    · intro t ht
      rw [hstrip]
      exact ht.eq

/-- One blank is not stripped. -/
theorem trim_keeps_blank : ¬ Trims [' '] ∧ trim [' '] = [' '] ∧ Stripped isBlank [' '] [] := by
  refine ⟨?_, by decide, ⟨⟨[' '], [], rfl, ?_, by simp⟩, by simp, by simp⟩⟩
  swap
  · exact List.all_eq_true.mp (by decide)
  intro h
  have hlast := h.1.head ' ' (by decide)
  exact absurd hlast (by decide)

end

end Vee.Strmagic
