import Mathlib.Data.List.Lex
import Mathlib.Data.String.Basic
import ScriptMachine.Proofs.Numbers.ByteScan

/-!
# Texts are ordered as their bytes

The bytes of a character tell by the first of them how many there are, and go on with its code in
digits to the base 64. So the lesser of two characters has the lesser bytes, whatever follows, and
the order of texts by the codes of their characters is the order of their bytes.

* `utf8EncodeChar_lt`: the bytes of two characters.
* `utf8_lt_iff`, `utf8_injective`: the bytes of two texts.
-/

namespace ScriptMachine

/-- The bytes of two characters differ before one of them ends. -/
theorem utf8EncodeChar_lt {c d : Char} (h : c < d) (bs bs' : List UInt8) :
    String.utf8EncodeChar c ++ bs < String.utf8EncodeChar d ++ bs' := by
  have hlt : c.val.toNat < d.val.toNat := h
  have hmax : d.val.toNat < 0x110000 := by
    rcases d.valid with hd | hd
    · exact Nat.lt_trans hd (by decide)
    · exact hd.2
  -- each digit comes from the one behind it
  have htwo : ∀ n, n / 4096 = n / 64 / 64 := by omega
  have hthree : ∀ n, n / 262144 = n / 64 / 64 / 64 := by omega
  unfold String.utf8EncodeChar
  dsimp only
  -- one case for each pair of lengths; a longer character starts with a greater byte
  split_ifs <;>
    simp only [List.cons_append, List.nil_append, List.cons_lt_cons_iff, UInt8.lt_iff_toNat_lt,
      ← UInt8.toNat_inj, UInt8.toNat_ofNat', htwo, hthree] <;>
    omega

theorem utf8_cons (c : Char) (cs : List Char) :
    utf8 (c :: cs) = String.utf8EncodeChar c ++ utf8 cs :=
  List.flatMap_cons

theorem nil_lt_utf8_cons (c : Char) (cs : List Char) : [] < utf8 (c :: cs) := by
  rw [utf8_cons]
  rcases utf8EncodeChar_cases c with ⟨-, hbytes⟩ | ⟨-, b, bs, hbytes, -⟩
  · rw [hbytes]
    exact List.nil_lt_cons _ _
  · rw [hbytes]
    exact List.nil_lt_cons _ _

theorem utf8_lt {cs ds : List Char} (h : cs < ds) : utf8 cs < utf8 ds := by
  induction cs generalizing ds with
  | nil =>
    cases ds with
    | nil => exact absurd h (List.not_lt_nil _)
    | cons d ds => exact nil_lt_utf8_cons d ds
  | cons c cs ih =>
    cases ds with
    | nil => exact absurd h (List.not_lt_nil _)
    | cons d ds =>
      rw [utf8_cons, utf8_cons]
      -- the first characters differ, or the order is that of the rests
      rcases List.cons_lt_cons_iff.mp h with hcd | ⟨rfl, hrest⟩
      · exact utf8EncodeChar_lt hcd _ _
      · exact List.append_left_lt (ih hrest)

theorem utf8_lt_iff {cs ds : List Char} : utf8 cs < utf8 ds ↔ cs < ds := by
  constructor
  · intro h
    -- both orders are linear, so one direction gives the other
    rcases lt_trichotomy cs ds with hlt | rfl | hgt
    · exact hlt
    · exact absurd h (List.lt_irrefl _)
    · exact absurd h (List.lt_asymm (utf8_lt hgt))
  · exact utf8_lt

theorem utf8_injective {cs ds : List Char} (h : utf8 cs = utf8 ds) : cs = ds := by
  rcases lt_trichotomy cs ds with hlt | heq | hgt
  · exact absurd (h ▸ utf8_lt hlt) (List.lt_irrefl _)
  · exact heq
  · exact absurd (h ▸ utf8_lt hgt) (List.lt_irrefl _)

end ScriptMachine
