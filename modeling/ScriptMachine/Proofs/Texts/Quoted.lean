import Mathlib.Data.List.Forall2
import ScriptMachine.Text.Quoted

/-!
# The end of a quoted text is seen

No escape is the start of another one, and none starts with the quote. So where a quoted text stands
at the start of a longer one, whatever is behind it, it can be told where the quoted text ends and
which text was quoted.

* `Delimited`: what is written can be told from a text that starts with it.
* `Delimited.flatMap`: a sequence of such parts, up to a mark that none of them starts with.
* `EscapedAs`, `delimited_escape`: the three forms of an escape.
* `delimited_quoted`: a quoted text.
-/

namespace ScriptMachine

/-! ## Texts whose end is seen -/

/-- Where the text of `a` stands at the start of a longer one, nothing but what is alike to `a` is
written there, and what is behind it can be told. -/
def Delimited {α : Type} (write : α → List Char) (alike : α → α → Prop) (a : α) : Prop :=
  ∀ b t u, write a ++ t = write b ++ u → alike a b ∧ t = u

/-- Parts one after the other, up to a mark that no part starts with. -/
theorem Delimited.flatMap {α : Type} {write : α → List Char} {alike : α → α → Prop} {mark : Char}
    (hmark : ∀ a, ∃ c r, write a = c :: r ∧ c ≠ mark) {as : List α}
    (has : ∀ a ∈ as, Delimited write alike a) :
    Delimited (fun as => as.flatMap write ++ [mark]) (List.Forall₂ alike) as := by
  induction as with
  | nil =>
    intro bs t u h
    cases bs with
    | nil => exact ⟨.nil, (List.cons.inj h).2⟩
    | cons b bs =>
      -- one text ends with the mark where the other one goes on
      obtain ⟨c, r, hb, hc⟩ := hmark b
      simp only [List.flatMap_cons, hb, List.cons_append] at h
      exact absurd (List.cons.inj h).1.symm hc
  | cons a as ih =>
    intro bs t u h
    cases bs with
    | nil =>
      obtain ⟨c, r, ha, hc⟩ := hmark a
      simp only [List.flatMap_cons, ha, List.cons_append] at h
      exact absurd (List.cons.inj h).1 hc
    | cons b bs =>
      simp only [List.flatMap_cons, List.append_assoc] at h
      -- the first parts are alike, and the induction goes on behind them
      obtain ⟨hab, hrest⟩ := has a List.mem_cons_self b _ _ h
      rw [← List.append_assoc, ← List.append_assoc] at hrest
      obtain ⟨habs, htu⟩ := ih (fun a' ha' => has a' (List.mem_cons_of_mem a ha')) bs t u hrest
      exact ⟨.cons hab habs, htu⟩

/-- A part that the mark behind it does not occur in. -/
theorem append_mark_inj {mark : Char} {cs ds t u : List Char} (hc : mark ∉ cs) (hd : mark ∉ ds)
    (h : cs ++ mark :: t = ds ++ mark :: u) : cs = ds ∧ t = u := by
  induction cs generalizing ds with
  | nil =>
    cases ds with
    | nil => exact ⟨rfl, (List.cons.inj h).2⟩
    | cons d ds => exact absurd ((List.cons.inj h).1 ▸ List.mem_cons_self) hd
  | cons c cs ih =>
    cases ds with
    | nil => exact absurd ((List.cons.inj h).1 ▸ List.mem_cons_self) hc
    | cons d ds =>
      obtain ⟨rfl, hrest⟩ := List.cons.inj h
      obtain ⟨rfl, htu⟩ := ih (fun hm => hc (List.mem_cons_of_mem c hm))
        (fun hm => hd (List.mem_cons_of_mem c hm)) hrest
      exact ⟨rfl, htu⟩

/-! ## Hexadecimal digits -/

theorem digitChar_inj : ∀ m < 16, ∀ n < 16, m.digitChar = n.digitChar → m = n := by
  decide

theorem hexDigits_inj {m n : Nat} (h : Nat.toDigits 16 m = Nat.toDigits 16 n) : m = n := by
  induction m using Nat.strongRecOn generalizing n with
  | ind m ih =>
    rw [Nat.toDigits_eq_if (by decide), Nat.toDigits_eq_if (n := n) (by decide)] at h
    by_cases hm : m < 16
    · by_cases hn : n < 16
      · rw [if_pos hm, if_pos hn] at h
        exact digitChar_inj m hm n hn (List.singleton_inj.mp h)
      · rw [if_pos hm, if_neg hn] at h
        have hdigits : [] ++ [m.digitChar] = Nat.toDigits 16 (n / 16) ++ [(n % 16).digitChar] := h
        exact absurd (List.append_inj' hdigits rfl).1.symm Nat.toDigits_ne_nil
    · by_cases hn : n < 16
      · rw [if_neg hm, if_pos hn] at h
        have hdigits : Nat.toDigits 16 (m / 16) ++ [(m % 16).digitChar] = [] ++ [n.digitChar] := h
        exact absurd (List.append_inj' hdigits rfl).1 Nat.toDigits_ne_nil
      · rw [if_neg hm, if_neg hn] at h
        obtain ⟨hfront, hlast⟩ := List.append_inj' h rfl
        -- by strong induction: the digits in front are those of a smaller number
        have hdiv : m / 16 = n / 16 := ih (m / 16) (by omega) hfront
        have hmod : m % 16 = n % 16 :=
          digitChar_inj _ (Nat.mod_lt _ (by decide)) _ (Nat.mod_lt _ (by decide))
            (List.singleton_inj.mp hlast)
        omega

theorem brace_notMem_hexDigits (n : Nat) : '\x7d' ∉ Nat.toDigits 16 n := by
  have hdigit : ∀ d < 16, '\x7d' ≠ d.digitChar := by decide
  induction n using Nat.strongRecOn with
  | ind n ih =>
    rw [Nat.toDigits_eq_if (by decide)]
    split
    · next hn => exact fun h => hdigit n hn (List.mem_singleton.mp h)
    · intro h
      rcases List.mem_append.mp h with h | h
      · exact ih (n / 16) (by omega) h
      · exact hdigit (n % 16) (Nat.mod_lt _ (by decide)) (List.mem_singleton.mp h)

/-! ## Escapes -/

/-- The characters that have an escape of their own, each with the letter of it. -/
def escapeLetters : List (Char × Char) :=
  [('"', '"'), ('\\', '\\'), ('\n', 'n'), ('\r', 'r'), ('\t', 't'), ('\x00', '0')]

/-- The forms in which a character is written between quotes. -/
inductive EscapedAs (c : Char) : List Char → Prop where
  | plain (hq : c ≠ '"') (hb : c ≠ '\\') : EscapedAs c [c]
  | letter {x : Char} (hx : (c, x) ∈ escapeLetters) : EscapedAs c ['\\', x]
  | code : EscapedAs c ('\\' :: 'u' :: '\x7b' :: (Nat.toDigits 16 c.toNat ++ ['\x7d']))

theorem escapedAs_escape (c : Char) : EscapedAs c (escape c) := by
  unfold escape
  split
  case h_7 hq hb _ _ _ _ =>
    split
    · exact .code
    · exact .plain hq hb
  all_goals exact .letter (by decide)

theorem delimited_escape (c : Char) : Delimited escape Eq c := by
  have hletters : ∀ p ∈ escapeLetters, p.2 ≠ 'u' ∧ ∀ q ∈ escapeLetters, p.2 = q.2 → p.1 = q.1 := by
    decide
  intro d t u h
  -- what is told apart are the forms, nine pairs of them
  generalize hcs : escape c = cs at h
  generalize hds : escape d = ds at h
  have hc := hcs ▸ escapedAs_escape c
  have hd := hds ▸ escapedAs_escape d
  cases hc with
  | plain hcq hcb =>
    cases hd with
    | plain => exact List.cons.inj h
    | letter | code => exact absurd (List.cons.inj h).1 hcb
  | letter hx =>
    cases hd with
    | plain _ hdb => exact absurd (List.cons.inj h).1.symm hdb
    | letter hy =>
      obtain ⟨hxy, htu⟩ := List.cons.inj (List.cons.inj h).2
      exact ⟨(hletters _ hx).2 _ hy hxy, htu⟩
    | code => exact absurd (List.cons.inj (List.cons.inj h).2).1 (hletters _ hx).1
  | code =>
    cases hd with
    | plain _ hdb => exact absurd (List.cons.inj h).1.symm hdb
    | letter hy => exact absurd (List.cons.inj (List.cons.inj h).2).1.symm (hletters _ hy).1
    | code =>
      -- the brace ends the digits of either code
      simp only [List.cons_append, List.append_assoc, List.nil_append, List.cons.injEq,
        true_and] at h
      obtain ⟨hdigits, htu⟩ :=
        append_mark_inj (brace_notMem_hexDigits _) (brace_notMem_hexDigits _) h
      exact ⟨Char.toNat_inj.mp (hexDigits_inj hdigits), htu⟩

/-- No escape ends the text that it stands in. -/
theorem escape_starts (c : Char) : ∃ x r, escape c = x :: r ∧ x ≠ '"' := by
  generalize hcs : escape c = cs
  have hc := hcs ▸ escapedAs_escape c
  cases hc with
  | plain hq => exact ⟨c, [], rfl, hq⟩
  | letter | code => exact ⟨'\\', _, rfl, by decide⟩

/-! ## Quoted texts -/

theorem delimited_quoted (s : String) : Delimited (fun s => (quoted s).toList) Eq s := by
  intro s' t u h
  simp only [toList_quoted, List.cons_append, List.cons.injEq, true_and] at h
  have hescapes : Delimited (fun cs => cs.flatMap escape ++ ['"']) (List.Forall₂ Eq) s.toList :=
    .flatMap escape_starts fun c _ => delimited_escape c
  obtain ⟨hsame, htu⟩ := hescapes s'.toList t u h
  rw [List.forall₂_eq_eq_eq] at hsame
  exact ⟨String.toList_inj.mp hsame, htu⟩

end ScriptMachine
