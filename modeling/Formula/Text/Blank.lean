/-! # Blank characters

The characters with the Unicode property White_Space, and texts without blanks at their ends:
`append_trim` says that only blanks are lost, and `trim_append` that blanks around a text do not
matter. So a core without blanks is found again in every text that pads it (`Pads.trim_eq`).
-/

namespace Formula.Text

/-- The ranges of White_Space, first and last code point. -/
def blankRanges : List (Nat × Nat) :=
  [(0x9, 0xD), (0x20, 0x20), (0x85, 0x85), (0xA0, 0xA0), (0x1680, 0x1680), (0x2000, 0x200A),
    (0x2028, 0x2029), (0x202F, 0x202F), (0x205F, 0x205F), (0x3000, 0x3000)]

def isBlank (c : Char) : Bool :=
  blankRanges.any fun range => range.1 ≤ c.toNat && c.toNat ≤ range.2

example : (blankRanges.map fun range => range.2 + 1 - range.1).sum = 25 := by decide

def trimLeft (cs : List Char) : List Char := cs.dropWhile isBlank

def trim (cs : List Char) : List Char := (trimLeft (trimLeft cs).reverse).reverse

theorem isBlank_of_mem_takeWhile {c : Char} {cs : List Char} (h : c ∈ cs.takeWhile isBlank) :
    isBlank c := by
  have hall := List.all_takeWhile (p := isBlank) (l := cs)
  exact List.all_eq_true.mp hall c h

theorem append_trim (cs : List Char) :
    ∃ front back, cs = front ++ trim cs ++ back ∧
      (∀ c ∈ front, isBlank c) ∧ ∀ c ∈ back, isBlank c := by
  have hfront : cs.takeWhile isBlank ++ trimLeft cs = cs := List.takeWhile_append_dropWhile
  have hback : (trimLeft cs).reverse.takeWhile isBlank ++ trimLeft (trimLeft cs).reverse =
      (trimLeft cs).reverse := List.takeWhile_append_dropWhile
  refine ⟨cs.takeWhile isBlank, ((trimLeft cs).reverse.takeWhile isBlank).reverse, ?_,
    fun c hc => isBlank_of_mem_takeWhile hc,
    fun c hc => isBlank_of_mem_takeWhile (List.mem_reverse.mp hc)⟩
  rw [List.append_assoc, trim, ← List.reverse_append, hback, List.reverse_reverse, hfront]

theorem trimLeft_append {front : List Char} (h : ∀ c ∈ front, isBlank c) (cs : List Char) :
    trimLeft (front ++ cs) = trimLeft cs := by
  induction front with
  | nil => rfl
  | cons c front ih =>
    have hc : isBlank c := h c List.mem_cons_self
    rw [List.cons_append, trimLeft, List.dropWhile_cons_of_pos hc]
    exact ih fun d hd => h d (List.mem_cons_of_mem c hd)

theorem trimLeft_append_blank {back : List Char} (h : ∀ c ∈ back, isBlank c) (cs : List Char) :
    trimLeft (cs ++ back) = if trimLeft cs = [] then [] else trimLeft cs ++ back := by
  induction cs with
  | nil =>
    rw [List.nil_append, ← List.append_nil back, trimLeft_append h]
    rfl
  | cons c cs ih =>
    by_cases hc : isBlank c
    · have hfront : ∀ d ∈ [c], isBlank d := by simpa using hc
      have htail := trimLeft_append hfront
      simp only [List.singleton_append] at htail
      rw [List.cons_append, htail, htail, ih]
    · have hkeep (tail : List Char) : trimLeft (c :: tail) = c :: tail :=
        List.dropWhile_cons_of_neg hc
      rw [List.cons_append, hkeep, hkeep, if_neg (List.cons_ne_nil c cs), List.cons_append]

theorem trim_append {front back : List Char} (hfront : ∀ c ∈ front, isBlank c)
    (hback : ∀ c ∈ back, isBlank c) (cs : List Char) : trim (front ++ cs ++ back) = trim cs := by
  have hreverse : ∀ c ∈ back.reverse, isBlank c := fun c hc => hback c (List.mem_reverse.mp hc)
  rw [List.append_assoc, trim, trimLeft_append hfront, trimLeft_append_blank hback, trim]
  split
  · rename_i hnil
    rw [hnil]
  · rw [List.reverse_append, trimLeft_append hreverse]

/-- The text has nothing but blanks around the core. -/
def Pads (cs core : List Char) : Prop :=
  ∃ front back, cs = front ++ core ++ back ∧ (∀ c ∈ front, isBlank c) ∧ ∀ c ∈ back, isBlank c

theorem pads_trim (cs : List Char) : Pads cs (trim cs) := append_trim cs

theorem trimLeft_eq_self {cs : List Char} (h : ∀ c ∈ cs, ¬isBlank c) : trimLeft cs = cs := by
  cases cs with
  | nil => rfl
  | cons c cs => exact List.dropWhile_cons_of_neg (h c List.mem_cons_self)

theorem trim_eq_self {cs : List Char} (h : ∀ c ∈ cs, ¬isBlank c) : trim cs = cs := by
  have hreverse : ∀ c ∈ cs.reverse, ¬isBlank c := fun c hc => h c (List.mem_reverse.mp hc)
  rw [trim, trimLeft_eq_self h, trimLeft_eq_self hreverse, List.reverse_reverse]

theorem Pads.trim_eq {cs core : List Char} (h : Pads cs core) (hcore : ∀ c ∈ core, ¬isBlank c) :
    trim cs = core := by
  obtain ⟨front, back, rfl, hfront, hback⟩ := h
  rw [trim_append hfront hback, trim_eq_self hcore]

end Formula.Text
