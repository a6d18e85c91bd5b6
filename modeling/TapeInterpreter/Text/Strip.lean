import TapeInterpreter.Text.Blank

/-!
What is left of a text when both its ends are stripped. It neither begins nor ends with a character
that is stripped, and this is all that is known of it later on.
-/
namespace TapeInterpreter.Text
set_option autoImplicit false

/-- At neither end is there a character that `p` holds of. -/
structure Bare (p : Char → Bool) (text : List Char) : Prop where
  first : ∀ c, text.head? = some c → p c = false
  last : ∀ c, text.getLast? = some c → p c = false

variable {p : Char → Bool} {l r text : List Char} {c : Char}

theorem bare_of_all (h : ∀ c ∈ text, p c = false) : Bare p text :=
  ⟨fun c hc => h c (List.mem_of_head? hc), fun c hc => h c (List.mem_of_getLast? hc)⟩

theorem bare_of_any (h : text.any p = false) : Bare p text :=
  bare_of_all fun c hc => Bool.eq_false_iff.mpr (List.any_eq_false.mp h c hc)

theorem dropWhile_of_head (h : ∀ c, text.head? = some c → p c = false) :
    text.dropWhile p = text := by
  cases text with
  | nil => rfl
  | cons c rest => exact List.dropWhile_cons_of_neg (by rw [h c rfl]; decide)

theorem head?_dropWhile (h : (text.dropWhile p).head? = some c) : p c = false := by
  have hnot := List.head?_dropWhile_not p text
  rwa [h] at hnot

theorem dropWhile_of_all (h : ∀ c ∈ text, p c = true) : text.dropWhile p = [] := by
  rw [← List.append_nil text, List.dropWhile_append_of_pos h, List.dropWhile_nil]

theorem strip_append_left (hl : ∀ c ∈ l, p c = true) : strip p (l ++ text) = strip p text := by
  rw [strip, List.dropWhile_append_of_pos hl, strip]

theorem strip_append_right (hr : ∀ c ∈ r, p c = true) : strip p (text ++ r) = strip p text := by
  rw [strip, strip, List.dropWhile_append]
  split
  · rename_i hnil
    rw [List.isEmpty_iff.mp hnil, dropWhile_of_all hr]
  · rw [List.reverse_append, List.dropWhile_append_of_pos fun c hc => hr c (List.mem_reverse.mp hc)]

theorem strip_of_bare (h : Bare p text) : strip p text = text := by
  have hlast : ∀ c, text.reverse.head? = some c → p c = false := fun c hc =>
    h.last c (by rwa [List.head?_reverse] at hc)
  rw [strip, dropWhile_of_head h.first, dropWhile_of_head hlast, List.reverse_reverse]

/-- What is between two rows of blanks is found if no blank begins or ends it. -/
theorem strip_between (hl : ∀ c ∈ l, p c = true) (h : Bare p text) (hr : ∀ c ∈ r, p c = true) :
    strip p (l ++ text ++ r) = text := by
  rw [strip_append_right hr, strip_append_left hl, strip_of_bare h]

/-- Only characters at the end are lost behind the first one that stays. -/
theorem strip_append_end (p : Char → Bool) (text : List Char) :
    strip p text ++ ((text.dropWhile p).reverse.takeWhile p).reverse = text.dropWhile p := by
  rw [strip, ← List.reverse_append, List.takeWhile_append_dropWhile, List.reverse_reverse]

theorem bare_strip (p : Char → Bool) (text : List Char) : Bare p (strip p text) := by
  constructor
  · intro c hc
    have hfirst : (text.dropWhile p).head? = some c := by
      rw [← strip_append_end, List.head?_append, hc]
      rfl
    exact head?_dropWhile hfirst
  · intro c hc
    rw [strip, List.getLast?_reverse] at hc
    exact head?_dropWhile hc

/-- A text is what is stripped of it, between two rows of what `p` holds of. -/
theorem exists_strip (p : Char → Bool) (text : List Char) :
    ∃ l r, text = l ++ strip p text ++ r ∧ (∀ c ∈ l, p c = true) ∧ ∀ c ∈ r, p c = true := by
  refine ⟨text.takeWhile p, ((text.dropWhile p).reverse.takeWhile p).reverse, ?_,
    fun c hc => ?_, fun c hc => ?_⟩
  · rw [List.append_assoc, strip_append_end, List.takeWhile_append_dropWhile]
  · exact List.all_eq_true.mp List.all_takeWhile c hc
  · exact List.all_eq_true.mp List.all_takeWhile c (List.mem_reverse.mp hc)

/-- A character that stays is not lost. -/
theorem mem_strip (hc : p c = false) : c ∈ strip p text ↔ c ∈ text := by
  obtain ⟨l, r, htext, hl, hr⟩ := exists_strip p text
  generalize strip p text = middle at htext ⊢
  have hnot : ∀ {row : List Char}, (∀ d ∈ row, p d = true) → c ∉ row := fun hrow hmem =>
    absurd (hrow c hmem) (by rw [hc]; decide)
  rw [htext, List.mem_append, List.mem_append]
  exact ⟨fun h => Or.inl (Or.inr h), fun h =>
    h.elim (fun h => h.resolve_left (hnot hl)) fun h => absurd h (hnot hr)⟩

theorem strip_reverse (p : Char → Bool) (text : List Char) :
    strip p text.reverse = (strip p text).reverse := by
  obtain ⟨l, r, htext, hl, hr⟩ := exists_strip p text
  have hbare : Bare p (strip p text).reverse :=
    ⟨fun c hc => (bare_strip p text).last c (by rwa [List.head?_reverse] at hc),
      fun c hc => (bare_strip p text).first c (by rwa [List.getLast?_reverse] at hc)⟩
  generalize strip p text = middle at htext hbare ⊢
  rw [htext, List.reverse_append, List.reverse_append, ← List.append_assoc]
  exact strip_between (fun c hc => hr c (List.mem_reverse.mp hc)) hbare
    fun c hc => hl c (List.mem_reverse.mp hc)

theorem head?_strip (p : Char → Bool) (text : List Char) :
    (strip p text).head? = (text.dropWhile p).head? := by
  obtain ⟨l, r, htext, hl, hr⟩ := exists_strip p text
  have hbare := bare_strip p text
  generalize strip p text = middle at htext hbare ⊢
  rw [htext, List.append_assoc, List.dropWhile_append_of_pos hl]
  cases middle with
  | nil => rw [List.nil_append, dropWhile_of_all hr]
  | cons c middle =>
    rw [List.cons_append, List.dropWhile_cons_of_neg (by rw [hbare.first c rfl]; decide)]
    rfl

/-- The first character that stays is in the front part, if one stays there. -/
theorem head?_strip_append (p : Char → Bool) (l r : List Char) :
    (strip p (l ++ r)).head? = (strip p l).head?.or (strip p r).head? := by
  rw [head?_strip, head?_strip, head?_strip, List.dropWhile_append]
  split
  · rename_i hnil
    rw [List.isEmpty_iff.mp hnil]
    rfl
  · rename_i hsome
    cases hl : l.dropWhile p with
    | nil => exact absurd (by rw [hl]; rfl) hsome
    | cons c rest => rfl

/-- The last one is in the back part. -/
theorem getLast?_strip_append (p : Char → Bool) (l r : List Char) :
    (strip p (l ++ r)).getLast? = (strip p r).getLast?.or (strip p l).getLast? := by
  have hlast : ∀ text, (strip p text).getLast? = (strip p text.reverse).head? := fun text => by
    rw [strip_reverse, List.head?_reverse]
  rw [hlast, hlast, hlast, List.reverse_append, head?_strip_append]

/-- Behind a character that stays, no more than the end is stripped. -/
theorem exists_strip_append_cons {a b : List Char} (hc : p c = false)
    (ha : ∀ d, (a ++ [c]).head? = some d → p d = false) :
    ∃ b' r, b = b' ++ r ∧ (∀ d ∈ r, p d = true) ∧ strip p (a ++ c :: b) = a ++ c :: b' := by
  have hsplit : (b.reverse.dropWhile p).reverse ++ (b.reverse.takeWhile p).reverse = b := by
    rw [← List.reverse_append, List.takeWhile_append_dropWhile, List.reverse_reverse]
  have hend : ∀ d ∈ (b.reverse.takeWhile p).reverse, p d = true := fun d hd =>
    List.all_eq_true.mp List.all_takeWhile d (List.mem_reverse.mp hd)
  have hbare : Bare p (a ++ c :: (b.reverse.dropWhile p).reverse) := by
    refine ⟨fun d hd => ha d (by cases a <;> exact hd), fun d hd => ?_⟩
    rw [List.getLast?_append, List.getLast?_cons, Option.some_or, List.getLast?_reverse] at hd
    cases hlast : (b.reverse.dropWhile p).head? with
    | none =>
      rw [hlast] at hd
      cases hd
      exact hc
    | some e =>
      rw [hlast] at hd
      cases hd
      exact head?_dropWhile hlast
  refine ⟨_, _, hsplit.symm, hend, ?_⟩
  calc strip p (a ++ c :: b)
    _ = strip p (a ++ c :: (b.reverse.dropWhile p).reverse ++ (b.reverse.takeWhile p).reverse) := by
      rw [List.append_assoc, List.cons_append, hsplit]
    _ = a ++ c :: (b.reverse.dropWhile p).reverse := by
      rw [strip_append_right hend, strip_of_bare hbare]

section Split

variable {b : List Char}

theorem all_ne_of_not_mem (h : c ∉ l) : ∀ d ∈ l, decide (d ≠ c) = true := fun _ hd =>
  decide_eq_true (ne_of_mem_of_not_mem hd h)

/-- A text is cut in front of the first `c`. -/
theorem takeWhile_ne_append (h : c ∉ l) : (l ++ c :: b).takeWhile (· ≠ c) = l := by
  rw [List.takeWhile_append_of_pos (all_ne_of_not_mem h), List.takeWhile_cons_of_neg (by simp),
    List.append_nil]

theorem dropWhile_ne_append (h : c ∉ l) : (l ++ c :: b).dropWhile (· ≠ c) = c :: b := by
  rw [List.dropWhile_append_of_pos (all_ne_of_not_mem h), List.dropWhile_cons_of_neg (by simp)]

/-- What has no `c` ends in front of the first one. -/
theorem exists_append_of_not_mem {a r : List Char} (hc : c ∉ a) (h : a ++ r = l ++ c :: b) :
    ∃ more, l = a ++ more := by
  rcases List.append_eq_append_iff.mp h with ⟨more, hmore, -⟩ | ⟨more, hmore, hrest⟩
  · exact ⟨more, hmore⟩
  · cases more with
    | nil => exact ⟨[], by rw [hmore, List.append_nil, List.append_nil]⟩
    | cons d more =>
      obtain rfl : c = d := (List.cons.inj hrest).1
      exact absurd (by rw [hmore]; simp) hc

theorem takeWhile_ne_of_not_mem (h : c ∉ l) : l.takeWhile (· ≠ c) = l := by
  conv => lhs; rw [← List.append_nil l]
  rw [List.takeWhile_append_of_pos (all_ne_of_not_mem h), List.takeWhile_nil, List.append_nil]

theorem dropWhile_ne_of_not_mem (h : c ∉ l) : l.dropWhile (· ≠ c) = [] :=
  dropWhile_of_all (all_ne_of_not_mem h)

end Split

/-- No digit is blank. -/
theorem isBlank_of_isDigit (h : c.isDigit = true) : isBlank c = false := by
  simp only [Char.isDigit, Bool.and_eq_true, decide_eq_true_eq] at h
  have hlow : 48 ≤ c.toNat := UInt32.le_iff_toNat_le.mp h.1
  have hhigh : c.toNat ≤ 57 := UInt32.le_iff_toNat_le.mp h.2
  cases hb : isBlank c with
  | false => rfl
  | true =>
    simp only [isBlank, Bool.or_eq_true, Bool.and_eq_true, decide_eq_true_eq, beq_iff_eq] at hb
    omega

end TapeInterpreter.Text
