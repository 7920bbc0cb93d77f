import Mathlib.Data.List.Chain
import Mathlib.Data.List.DropRight
import Mathlib.Data.Nat.Notation

/-!
# Tokens of a text

A text is cut at its delimiters, and the empty pieces are dropped. Its tokens joined with one
blank are the text with every stretch of delimiters squeezed. A text is tidy when squeezing and
trimming leave it as it is.
-/

namespace Tejas.Tokens

universe u

variable {α : Type u}

/-- The maximal stretches without a delimiter. -/
def tokens (d : α → Bool) (l : List α) : List (List α) :=
  (l.splitOnP d).filter (fun t => !t.isEmpty)

/-- The text without the low characters at its two ends. -/
def trim (low : α → Bool) (l : List α) : List α := (l.dropWhile low).rdropWhile low

/-- The tokens of a text with one blank between two of them. -/
def squeeze (d : α → Bool) (blank : α) (l : List α) : List α := [blank].intercalate (tokens d l)

/-- Single blanks are the only delimiters, and the text begins and ends with no low one. -/
structure Tidy (d low : α → Bool) (blank : α) (l : List α) : Prop where
  blanks : ∀ c ∈ l, d c = true → c = blank
  single : l.IsChain (fun a b => a = blank → b ≠ blank)
  first : ∀ c ∈ l.head?, low c = false
  last : ∀ c ∈ l.getLast?, low c = false

section Joining

variable {blank c : α} {us vs : List (List α)}

theorem intercalate_append (hus : us ≠ []) (hvs : vs ≠ []) :
    [blank].intercalate (us ++ vs) =
      [blank].intercalate us ++ blank :: [blank].intercalate vs := by
  induction us with
  | nil => exact absurd rfl hus
  | cons u us ih =>
    cases us with
    | nil => rw [List.singleton_append, List.intercalate_cons_of_ne_nil hvs]; simp
    | cons u' us =>
      have hrest := ih (List.cons_ne_nil u' us)
      rw [List.cons_append] at hrest
      rw [List.cons_append, List.cons_append, List.intercalate_cons_cons,
        List.intercalate_cons_cons, hrest]
      simp

/-- The last word of a joined text can be lengthened afterwards. -/
theorem intercalate_concat (us : List (List α)) (w v : List α) :
    [blank].intercalate (us ++ [w ++ v]) = [blank].intercalate (us ++ [w]) ++ v := by
  cases us with
  | nil => simp
  | cons u us =>
    rw [intercalate_append (List.cons_ne_nil u us) (List.cons_ne_nil _ []),
      intercalate_append (List.cons_ne_nil u us) (List.cons_ne_nil w [])]
    simp

theorem mem_intercalate {sep : List α} (hc : c ∈ sep.intercalate us) :
    c ∈ sep ∨ ∃ u ∈ us, c ∈ u := by
  induction us with
  | nil => simp at hc
  | cons u us ih =>
    cases us with
    | nil => exact .inr ⟨u, by simp, by simpa using hc⟩
    | cons u' us =>
      rw [List.intercalate_cons_cons, List.append_assoc, List.mem_append, List.mem_append] at hc
      rcases hc with hc | hc | hc
      · exact .inr ⟨u, by simp, hc⟩
      · exact .inl hc
      · rcases ih hc with hsep | ⟨w, hw, hcw⟩
        · exact .inl hsep
        · exact .inr ⟨w, List.mem_cons_of_mem u hw, hcw⟩

theorem intercalate_ne_nil (hus : us ≠ []) (hne : ∀ u ∈ us, u ≠ []) :
    [blank].intercalate us ≠ [] := by
  cases us with
  | nil => exact absurd rfl hus
  | cons u us =>
    cases us with
    | nil => simpa using hne u (by simp)
    | cons u' us => simp

/-- Words without a blank, joined with blanks, have no two blanks in a row. -/
theorem single_intercalate (hne : ∀ u ∈ us, u ≠ []) (hfree : ∀ u ∈ us, blank ∉ u) :
    ([blank].intercalate us).IsChain (fun a b => a = blank → b ≠ blank) := by
  have hword : ∀ u : List α, blank ∉ u → u.IsChain (fun a b => a = blank → b ≠ blank) := by
    intro u hu
    refine List.isChain_iff_forall_rel_of_append_cons_cons.mpr fun a b p s hsplit ha => ?_
    exact absurd (by rw [hsplit, ha]; simp) hu
  induction us with
  | nil => exact .nil
  | cons u us ih =>
    have hu : blank ∉ u := hfree u (by simp)
    cases us with
    | nil => simpa using hword u hu
    | cons u' us =>
      have hrest := ih (fun w hw => hne w (List.mem_cons_of_mem u hw))
        (fun w hw => hfree w (List.mem_cons_of_mem u hw))
      obtain ⟨a, u', rfl⟩ := List.exists_cons_of_ne_nil (hne u' (by simp))
      have ha : a ≠ blank := fun h => hfree (a :: u') (by simp) (by simp [h])
      rw [List.intercalate_cons_cons, List.append_assoc]
      refine (hword u hu).append ?_ fun b hb _ _ hab => ?_
      · exact List.IsChain.cons hrest (by simp [ha])
      · exact absurd (hab ▸ List.mem_of_mem_getLast? hb) hu

end Joining

section Cutting

variable {d : α → Bool} {l w : List α} {blank s : α}

theorem tokens_append_cons (hs : d s = true) (xs ys : List α) :
    tokens d (xs ++ s :: ys) = tokens d xs ++ tokens d ys := by
  rw [tokens, List.splitOnP_append_cons xs ys hs, List.filter_append, tokens, tokens]

theorem tokens_of_free (hw : ∀ c ∈ w, d c = false) : tokens d w = if w = [] then [] else [w] := by
  rw [tokens, List.splitOnP_eq_singleton hw]
  cases w with
  | nil => rfl
  | cons c w => rfl

@[simp] theorem tokens_nil : tokens d [] = [] := rfl

/-- A text without a delimiter, or the stretch before the first delimiter and the rest. -/
theorem cut_induction {P : List α → Prop} (hfree : ∀ w, (∀ c ∈ w, d c = false) → P w)
    (hcut : ∀ w s r, (∀ c ∈ w, d c = false) → d s = true → P r → P (w ++ s :: r)) (l : List α) :
    P l := by
  have hsplit : ∀ l : List α, (∀ c ∈ l, d c = false) ∨
      ∃ w s r, l = w ++ s :: r ∧ (∀ c ∈ w, d c = false) ∧ d s = true := by
    intro l
    induction l with
    | nil => exact .inl (by simp)
    | cons c l ih =>
      cases hc : d c with
      | true => exact .inr ⟨[], c, l, rfl, by simp, hc⟩
      | false =>
        rcases ih with hl | ⟨w, s, r, rfl, hw, hs⟩
        · exact .inl (by simpa [hc] using hl)
        · exact .inr ⟨c :: w, s, r, rfl, by simpa [hc] using hw, hs⟩
  induction hn : l.length using Nat.strongRecOn generalizing l with
  | _ n ih =>
    rcases hsplit l with hl | ⟨w, s, r, rfl, hw, hs⟩
    · exact hfree l hl
    · rw [List.length_append, List.length_cons] at hn
      exact hcut w s r hw hs (ih r.length (by omega) r rfl)

theorem mem_tokens {t : List α} (ht : t ∈ tokens d l) :
    t ≠ [] ∧ ∀ c ∈ t, c ∈ l ∧ d c = false := by
  have hword : ∀ w : List α, (∀ c ∈ w, d c = false) → ∀ t ∈ tokens d w, t = w ∧ w ≠ [] := by
    intro w hw t ht
    rw [tokens_of_free hw] at ht
    split at ht
    · simp at ht
    · exact ⟨List.mem_singleton.mp ht, ‹_›⟩
  induction l using cut_induction (d := d) with
  | hfree w hw =>
    obtain ⟨rfl, hne⟩ := hword w hw t ht
    exact ⟨hne, fun c hc => ⟨hc, hw c hc⟩⟩
  | hcut w s r hw hs ih =>
    rw [tokens_append_cons hs, List.mem_append] at ht
    rcases ht with ht | ht
    · obtain ⟨rfl, hne⟩ := hword w hw t ht
      exact ⟨hne, fun c hc => ⟨by simp [hc], hw c hc⟩⟩
    · obtain ⟨hne, hall⟩ := ih ht
      exact ⟨hne, fun c hc => ⟨by simp [(hall c hc).1], (hall c hc).2⟩⟩

/-- A character that is no delimiter lengthens the last token or is a new one. -/
theorem exists_tokens_concat {c : α} (hc : d c = false) (l : List α) :
    ∃ ts w, tokens d l = (if w = [] then ts else ts ++ [w]) ∧
      tokens d (l ++ [c]) = ts ++ [w ++ [c]] := by
  induction l using cut_induction (d := d) with
  | hfree w hw =>
    have hwc : ∀ b ∈ w ++ [c], d b = false := by
      intro b hb
      rcases List.mem_append.mp hb with hb | hb
      · exact hw b hb
      · rw [List.mem_singleton.mp hb, hc]
    exact ⟨[], w, by rw [tokens_of_free hw]; simp, by rw [tokens_of_free hwc]; simp⟩
  | hcut w s r hw hs ih =>
    obtain ⟨ts, w', hl, hlc⟩ := ih
    refine ⟨tokens d w ++ ts, w', ?_, ?_⟩
    · rw [tokens_append_cons hs, hl]
      split <;> simp
    · rw [List.append_assoc, List.cons_append, tokens_append_cons hs, hlc, List.append_assoc]

@[simp] theorem squeeze_nil : squeeze d blank [] = [] := rfl

theorem squeeze_eq_nil_iff : squeeze d blank l = [] ↔ tokens d l = [] := by
  refine ⟨fun h => ?_, fun h => by rw [squeeze, h]; rfl⟩
  by_contra hne
  exact intercalate_ne_nil hne (fun t ht => (mem_tokens ht).1) h

theorem mem_squeeze {c : α} (hc : c ∈ squeeze d blank l) : c = blank ∨ c ∈ l ∧ d c = false := by
  rcases mem_intercalate hc with hsep | ⟨t, ht, hct⟩
  · exact .inl (List.mem_singleton.mp hsep)
  · exact .inr ((mem_tokens ht).2 c hct)

/-- Squeezing leaves single blanks inside a text alone. -/
theorem squeeze_eq_self (hblank : d blank = true) (hblanks : ∀ c ∈ l, d c = true → c = blank)
    (hsingle : l.IsChain (fun a b => a = blank → b ≠ blank)) (hfirst : ∀ c ∈ l.head?, c ≠ blank)
    (hlast : ∀ c ∈ l.getLast?, c ≠ blank) : squeeze d blank l = l := by
  induction l using cut_induction (d := d) with
  | hfree w hw =>
    rw [squeeze, tokens_of_free hw]
    split
    · rw [‹w = []›]; rfl
    · exact List.intercalate_singleton
  | hcut w s r hw hs ih =>
    obtain rfl : s = blank := hblanks s (by simp) hs
    have hwne : w ≠ [] := by
      rintro rfl
      exact hfirst s rfl rfl
    have hrne : r ≠ [] := by
      rintro rfl
      exact hlast s (by simp) rfl
    have hrest : (s :: r).IsChain (fun a b => a = s → b ≠ s) := hsingle.right_of_append
    have hr := ih (fun c hc => hblanks c (by simp [hc])) hrest.tail
      (fun c hc => hrest.rel_head? hc rfl)
      (fun c hc => hlast c (by
        rwa [List.getLast?_append_cons, List.getLast?_cons_of_ne_nil hrne]))
    have htokens : tokens d r ≠ [] := fun h => hrne (by rw [← hr, squeeze_eq_nil_iff.mpr h])
    rw [squeeze, tokens_append_cons hblank, tokens_of_free hw, if_neg hwne,
      intercalate_append (List.cons_ne_nil w []) htokens, List.intercalate_singleton, ← squeeze, hr]

/-- Both sides of a character that is no delimiter and stands before a blank are squeezed. -/
theorem exists_squeeze_split {c : α} (hblank : d blank = true) (hc : d c = false) (l r : List α) :
    ∃ x y, squeeze d blank (l ++ c :: blank :: r) = x ++ c :: y ∧
      (x = squeeze d blank l ∨ x = squeeze d blank l ++ [blank] ∧ tokens d l ≠ []) ∧
      (y = squeeze d blank r ∧ tokens d r = [] ∨
        y = blank :: squeeze d blank r ∧ tokens d r ≠ []) := by
  obtain ⟨ts, w, hl, hlc⟩ := exists_tokens_concat hc l
  have hall : squeeze d blank (l ++ c :: blank :: r) =
      [blank].intercalate (ts ++ [w ++ [c]] ++ tokens d r) := by
    rw [squeeze, show l ++ c :: blank :: r = (l ++ [c]) ++ blank :: r by simp,
      tokens_append_cons hblank, hlc]
  have hne : ts ++ [w ++ [c]] ≠ [] := by simp
  refine ⟨[blank].intercalate (ts ++ [w]),
    if tokens d r = [] then squeeze d blank r else blank :: squeeze d blank r, ?_, ?_, ?_⟩
  · rw [hall]
    split
    case isTrue hr => rw [squeeze, hr, List.append_nil, intercalate_concat]; rfl
    case isFalse hr => rw [intercalate_append hne hr, intercalate_concat, squeeze]; simp
  · rw [squeeze, hl]
    split
    case isTrue hw =>
      rw [hw]
      cases ts with
      | nil => exact .inl rfl
      | cons t ts =>
        refine .inr ⟨?_, List.cons_ne_nil t ts⟩
        rw [intercalate_append (List.cons_ne_nil t ts) (List.cons_ne_nil [] [])]
        rfl
    case isFalse hw => exact .inl rfl
  · split
    case isTrue hr => exact .inl ⟨rfl, hr⟩
    case isFalse hr => exact .inr ⟨rfl, hr⟩

end Cutting

section Trimming

variable {d low : α → Bool} {l : List α} {blank c : α}

theorem trim_cons (hc : low c = true) (l : List α) : trim low (c :: l) = trim low l := by
  rw [trim, List.dropWhile_cons_of_pos hc, trim]

theorem trim_concat (hc : low c = true) (l : List α) : trim low (l ++ [c]) = trim low l := by
  rw [trim, trim, List.dropWhile_append]
  split
  case isTrue h =>
    rw [List.isEmpty_iff.mp h, List.dropWhile_cons_of_pos hc, List.dropWhile_nil]
  case isFalse h => rw [List.rdropWhile_concat_pos _ _ _ hc]

theorem trim_infix (low : α → Bool) (l : List α) : trim low l <:+: l :=
  (List.rdropWhile_prefix low _).isInfix.trans (List.dropWhile_suffix low).isInfix

theorem head_trim (hc : c ∈ (trim low l).head?) : low c = false := by
  obtain ⟨s, hs⟩ := List.rdropWhile_prefix low (l.dropWhile low)
  have hdrop := List.head?_dropWhile_not low l
  rw [← hs, List.head?_append, ← trim, Option.mem_def.mp hc] at hdrop
  exact hdrop

theorem last_trim (hc : c ∈ (trim low l).getLast?) : low c = false := by
  have hne : trim low l ≠ [] := by
    intro h
    rw [h] at hc
    simp at hc
  have hlast := List.rdropWhile_last_not low (l.dropWhile low) hne
  rw [List.getLast?_eq_some_getLast hne, Option.mem_def, Option.some.injEq] at hc
  subst hc
  exact Bool.eq_false_iff.mpr hlast

theorem trim_eq_self (hfirst : ∀ c ∈ l.head?, low c = false)
    (hlast : ∀ c ∈ l.getLast?, low c = false) : trim low l = l := by
  have hdrop : l.dropWhile low = l := by
    cases l with
    | nil => rfl
    | cons c l => rw [List.dropWhile_cons_of_neg (by simp [hfirst c rfl])]
  rw [trim, hdrop, List.rdropWhile_eq_self_iff]
  intro hne hlow
  rw [hlast _ (List.getLast?_eq_some_getLast hne)] at hlow
  exact Bool.false_ne_true hlow

/-- Exactly the tidy texts are left alone by squeezing and trimming. -/
theorem tidy_iff (hblank : d blank = true) (hlow : low blank = true) :
    Tidy d low blank l ↔ trim low (squeeze d blank l) = l := by
  constructor
  · intro h
    have hne : ∀ c, low c = false → c ≠ blank := by
      rintro c hc rfl
      rw [hlow] at hc
      exact Bool.false_ne_true hc.symm
    rw [squeeze_eq_self hblank h.blanks h.single (fun c hc => hne c (h.first c hc))
      (fun c hc => hne c (h.last c hc)), trim_eq_self h.first h.last]
  · intro h
    have hwithin : l <:+: squeeze d blank l := by
      have := trim_infix low (squeeze d blank l)
      rwa [h] at this
    refine ⟨fun c hc hdc => ?_, ?_, fun c hc => ?_, fun c hc => ?_⟩
    · rcases mem_squeeze (hwithin.subset hc) with rfl | ⟨-, hfree⟩
      · rfl
      · rw [hfree] at hdc
        exact absurd hdc Bool.false_ne_true
    · refine List.IsChain.infix (single_intercalate (fun t ht => (mem_tokens ht).1) ?_) hwithin
      intro t ht hmem
      have := ((mem_tokens ht).2 blank hmem).2
      rw [hblank] at this
      exact Bool.false_ne_true this.symm
    · rw [← h] at hc
      exact head_trim hc
    · rw [← h] at hc
      exact last_trim hc

end Trimming

end Tejas.Tokens
