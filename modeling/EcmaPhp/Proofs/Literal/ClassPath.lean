import EcmaPhp.Literal.ClassName
import Mathlib

/-! Class names of module paths. A segment of the path that holds no letter and no digit leaves
nothing of itself between two separators. -/
namespace EcmaPhp
open Text Literal

namespace Literal

/-- A segment of a class name: letters and digits of ASCII, of which the first is no small letter. -/
structure IsSegment (s : List Char) : Prop where
  ne_nil : s ≠ []
  alphanum : ∀ c ∈ s, c.isAlphanum = true
  first : ∀ c ∈ s.head?, c.isLower = false

/-- Segments with one backslash between any two of them, and none at either end. -/
def IsPath (text : List Char) : Prop :=
  ∃ segments, segments ≠ [] ∧ (∀ s ∈ segments, IsSegment s) ∧ text = ['\\'].intercalate segments

section Words

variable {text : List Char}

theorem isWordChar_eq (c : Char) : isWordChar c = c.isAlphanum := Bool.or_comm _ _

theorem isAlphanum_toUpper {c : Char} (h : c.isAlphanum = true) : c.toUpper.isAlphanum = true := by
  by_cases hlower : c.isLower = true
  · simp [Char.isAlphanum, Char.isAlpha, hlower]
  · rwa [Char.toUpper_eq_of_not_isLower hlower]

theorem alphanum_capitalizeWords (atStart : Bool) (text : List Char) :
    ∀ c ∈ capitalizeWords atStart text, c.isAlphanum = true := by
  induction text generalizing atStart with
  | nil => simp [capitalizeWords]
  | cons c rest ih =>
    rw [capitalizeWords, isWordChar_eq]
    split
    · rename_i hc
      rw [List.forall_mem_cons]
      refine ⟨?_, ih false⟩
      split
      · exact isAlphanum_toUpper hc
      · exact hc
    · exact ih true

theorem first_capitalizeWords (text : List Char) :
    ∀ c ∈ (capitalizeWords true text).head?, c.isLower = false := by
  induction text with
  | nil => simp [capitalizeWords]
  | cons c rest ih =>
    rw [capitalizeWords]
    split
    · simp
    · exact ih

theorem capitalizeWords_eq_nil_iff (atStart : Bool) :
    capitalizeWords atStart text = [] ↔ ∀ c ∈ text, c.isAlphanum = false := by
  induction text generalizing atStart with
  | nil => simp [capitalizeWords]
  | cons c rest ih =>
    rw [capitalizeWords, isWordChar_eq, List.forall_mem_cons]
    split
    · rename_i hc
      simp [hc]
    · rename_i hc
      simp [hc, ih]

theorem capitalizeWords_false (h : ∀ c ∈ text, c.isAlphanum = true) :
    capitalizeWords false text = text := by
  induction text with
  | nil => rfl
  | cons c rest ih =>
    obtain ⟨hc, hrest⟩ := List.forall_mem_cons.mp h
    rw [capitalizeWords, isWordChar_eq, if_pos hc, ih hrest]
    rfl

/-- What is in class casing already stays as it is. -/
theorem capitalizeWords_of_first (h : ∀ c ∈ text, c.isAlphanum = true)
    (hfirst : ∀ c ∈ text.head?, c.isLower = false) : capitalizeWords true text = text := by
  cases text with
  | nil => rfl
  | cons c rest =>
    obtain ⟨hc, hrest⟩ := List.forall_mem_cons.mp h
    have hupper : c.toUpper = c := Char.toUpper_eq_of_not_isLower (by simp [hfirst c rfl])
    rw [capitalizeWords, isWordChar_eq, if_pos hc, if_pos rfl, hupper, capitalizeWords_false hrest]

end Words

section Paths

theorem joinWith_eq_intercalate (separator : Char) (segments : List (List Char)) :
    joinWith separator segments = [separator].intercalate segments := by
  induction segments with
  | nil => rfl
  | cons first rest ih =>
    cases rest with
    | nil => simp [joinWith]
    | cons second others =>
      rw [joinWith, ih, List.intercalate_cons_cons]
      · simp
      · simp

variable {names names' : List (List Char)}

theorem intercalate_inj {separator : Char} (hne : [separator].intercalate names ≠ [])
    (h : ∀ s ∈ names, separator ∉ s) (h' : ∀ s ∈ names', separator ∉ s)
    (heq : [separator].intercalate names = [separator].intercalate names') : names = names' := by
  have hnames : names ≠ [] := by
    rintro rfl
    exact hne rfl
  have hnames' : names' ≠ [] := by
    rintro rfl
    exact hne heq
  rw [← List.splitOn_intercalate separator h hnames, heq,
    List.splitOn_intercalate separator h' hnames']

theorem notMem_of_alphanum {s : List Char} {c : Char} (h : ∀ d ∈ s, d.isAlphanum = true)
    (hc : c.isAlphanum = false) : c ∉ s := by
  intro hmem
  rw [h c hmem] at hc
  cases hc

/-- In a class name, only the separators are backslashes. -/
theorem map_slash_intercalate (h : ∀ s ∈ names, ∀ c ∈ s, c.isAlphanum = true) :
    ((['\\'].intercalate names).map fun c => if c = '\\' then '/' else c) =
      ['/'].intercalate names := by
  induction names with
  | nil => rfl
  | cons first rest ih =>
    obtain ⟨hfirst, hrest⟩ := List.forall_mem_cons.mp h
    have hslash : '\\' ∉ first := notMem_of_alphanum hfirst (by decide)
    have hself : (first.map fun c => if c = '\\' then '/' else c) = first := by
      conv_rhs => rw [← List.map_id first]
      apply List.map_congr_left
      intro c hc
      have hother : c ≠ '\\' := by
        rintro rfl
        exact hslash hc
      exact if_neg hother
    cases rest with
    | nil => simpa using hself
    | cons second others =>
      rw [List.intercalate_cons_cons, List.intercalate_cons_cons, List.map_append, List.map_append,
        hself, ih hrest]
      rfl

/-- The segments of a class name are those of its names that are not empty. -/
theorem pathSegments_intercalate (h : ∀ s ∈ names, ∀ c ∈ s, c.isAlphanum = true) :
    pathSegments (['\\'].intercalate names) = names.filter (· != []) := by
  rw [pathSegments, map_slash_intercalate h, split_eq_splitOn]
  by_cases hnames : names = []
  · subst hnames
    rfl
  rw [List.splitOn_intercalate '/' (fun s hs => notMem_of_alphanum (h s hs) (by decide)) hnames]
  apply List.filter_congr
  intro s hs
  have hdot : '.' ∉ s := notMem_of_alphanum (h s hs) (by decide)
  have hone : (s != ['.']) = true := by
    rw [bne_iff_ne]
    rintro rfl
    simp at hdot
  have htwo : (s != ['.', '.']) = true := by
    rw [bne_iff_ne]
    rintro rfl
    simp at hdot
  rw [hone, htwo, Bool.and_true, Bool.and_true]

end Paths

section ClassName

variable (path : String)

/-- The names of which the class name of a path is made. -/
def classNames (path : String) : List (List Char) :=
  (pathSegments path.toList).map (capitalizeWords true)

theorem alphanum_classNames : ∀ s ∈ classNames path, ∀ c ∈ s, c.isAlphanum = true := by
  intro s hs
  obtain ⟨segment, -, rfl⟩ := List.mem_map.mp hs
  exact alphanum_capitalizeWords true segment

theorem first_classNames : ∀ s ∈ classNames path, ∀ c ∈ s.head?, c.isLower = false := by
  intro s hs
  obtain ⟨segment, -, rfl⟩ := List.mem_map.mp hs
  exact first_capitalizeWords segment

theorem toList_className : (className path).toList = ['\\'].intercalate (classNames path) := by
  rw [className, String.toList_ofList, joinWith_eq_intercalate]
  rfl

/-- The class name of a class name is made of the same names, less those that are empty. -/
theorem classNames_className : classNames (className path) = (classNames path).filter (· != []) := by
  rw [classNames, toList_className, pathSegments_intercalate (alphanum_classNames path)]
  conv_rhs => rw [← List.map_id ((classNames path).filter (· != []))]
  apply List.map_congr_left
  intro s hs
  have hname : s ∈ classNames path := (List.mem_filter.mp hs).1
  exact capitalizeWords_of_first (alphanum_classNames path s hname) (first_classNames path s hname)

theorem backslash_notMem_classNames : ∀ s ∈ classNames path, '\\' ∉ s := fun s hs =>
  notMem_of_alphanum (alphanum_classNames path s hs) (by decide)

theorem classNames_ne_nil_iff :
    (∀ s ∈ classNames path, s ≠ []) ↔
      ∀ s ∈ pathSegments path.toList, s.any Char.isAlphanum = true := by
  simp only [classNames, List.forall_mem_map, ne_eq, capitalizeWords_eq_nil_iff, not_forall,
    Bool.not_eq_false, exists_prop, List.any_eq_true]

variable {path}

theorem intercalate_classNames_ne_nil (h : className path ≠ "") :
    ['\\'].intercalate (classNames path) ≠ [] := by
  rw [← toList_className]
  simpa using h

theorem isPath_className_iff (h : className path ≠ "") :
    IsPath (className path).toList ↔ ∀ s ∈ classNames path, s ≠ [] := by
  have hne := intercalate_classNames_ne_nil h
  rw [toList_className]
  constructor
  · rintro ⟨segments, -, hsegments, heq⟩
    have hslash (s : List Char) (hs : s ∈ segments) : '\\' ∉ s :=
      notMem_of_alphanum (hsegments s hs).alphanum (by decide)
    obtain rfl := intercalate_inj hne (backslash_notMem_classNames path) hslash heq
    exact fun s hs => (hsegments s hs).ne_nil
  · intro hnames
    refine ⟨classNames path, ?_, ?_, rfl⟩
    · intro hnil
      exact hne (by rw [hnil]; rfl)
    · exact fun s hs =>
        ⟨hnames s hs, alphanum_classNames path s hs, first_classNames path s hs⟩

theorem className_className_iff (h : className path ≠ "") :
    className (className path) = className path ↔ ∀ s ∈ classNames path, s ≠ [] := by
  have hne := intercalate_classNames_ne_nil h
  have hslash := backslash_notMem_classNames path
  rw [← String.toList_inj, toList_className, toList_className, classNames_className]
  constructor
  · intro heq
    have hsame : classNames path = (classNames path).filter (· != []) :=
      intercalate_inj hne hslash (fun s hs => hslash s (List.mem_of_mem_filter hs)) heq.symm
    exact fun s hs => bne_iff_ne.mp (List.filter_eq_self.mp hsame.symm s hs)
  · intro hnames
    rw [List.filter_eq_self.mpr fun s hs => bne_iff_ne.mpr (hnames s hs)]

end ClassName

end Literal

/-- A class name that is not empty consists of segments of letters and digits, none of which begins
with a small letter, with single backslashes between them, if and only if every segment of the module
path has a letter or a digit. Exactly then it is its own class name. -/
theorem class_path_iff {path : String} (h : className path ≠ "") :
    (IsPath (className path).toList ↔
      ∀ s ∈ pathSegments path.toList, s.any Char.isAlphanum = true) ∧
    (className (className path) = className path ↔
      ∀ s ∈ pathSegments path.toList, s.any Char.isAlphanum = true) := by
  rw [← classNames_ne_nil_iff]
  exact ⟨isPath_className_iff h, className_className_iff h⟩

/-- The first of two segments is lost, and the separator behind it is not. -/
theorem class_path_iff_alias :
    className "@/components" = "\\Components" ∧ ¬ IsPath "\\Components".toList ∧
    className "\\Components" ≠ "\\Components" ∧
    IsPath "FooBar\\Baz".toList ∧ className "FooBar\\Baz" = "FooBar\\Baz" := by
  have hlost : className "@/components" = "\\Components" := by decide
  have hkept : className "./foo-bar/baz" = "FooBar\\Baz" := by decide
  obtain ⟨hpath, hstable⟩ := @class_path_iff "@/components" (by decide)
  obtain ⟨hpath', hstable'⟩ := @class_path_iff "./foo-bar/baz" (by decide)
  rw [hlost] at hpath hstable
  rw [hkept] at hpath' hstable'
  exact ⟨hlost, mt hpath.mp (by decide), mt hstable.mp (by decide), hpath'.mpr (by decide),
    hstable'.mpr (by decide)⟩

end EcmaPhp
