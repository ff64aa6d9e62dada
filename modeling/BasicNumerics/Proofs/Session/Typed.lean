/-
A typed number and the line that holds it.

A session reads numbers in two ways. One takes a text, strips the blanks around it and
the sign in front, and wants one literal and nothing else. The other evaluates a line,
which is cut into lexemes and read as an expression. On a text that the first accepts
the two are the same computation: blanks are dropped by either, the literal ends where
the blanks after it begin (`Literal.scan?_append`), and a sign in front of one literal
makes the negation of it, or nothing.
-/
import BasicNumerics.Proofs.Expr.Climbing
import BasicNumerics.Proofs.Literal.Scanning

set_option autoImplicit false

namespace BasicNumerics

/-! ## Blanks -/

namespace Text

theorem trimStart_spec (cs : List Char) :
    ∃ before, cs = before ++ trimStart cs ∧ ∀ c ∈ before, isBlank c = true :=
  ⟨cs.takeWhile isBlank, List.takeWhile_append_dropWhile.symm, fun _ => List.mem_takeWhile_imp⟩

/-- What trimming takes away is blank, on either side. -/
theorem trim_spec (cs : List Char) : ∃ before after, cs = before ++ (trim cs ++ after) ∧
    (∀ c ∈ before, isBlank c = true) ∧ ∀ c ∈ after, isBlank c = true := by
  obtain ⟨before, hbefore, hblank⟩ := trimStart_spec cs
  obtain ⟨after, hafter, hblank'⟩ := trimStart_spec (trimStart cs).reverse
  refine ⟨before, after.reverse, ?_, hblank, ?_⟩
  · rw [trim, ← List.reverse_append, ← hafter, List.reverse_reverse]
    exact hbefore
  · intro c hc
    exact hblank' c (List.mem_reverse.mp hc)

end Text

namespace Lexeme

theorem scanAll_cons_of_next {c : Char} {cs rest : List Char} {t : Lexeme}
    (hc : Text.isBlank c = false) (h : next c cs = .ok (t, rest)) :
    scanAll (c :: cs) = (scanAll rest).map (t :: ·) := by
  rw [scanAll, if_neg (by simp [hc])]
  split
  · next f hf =>
    rw [h] at hf
    exact absurd hf (by simp)
  · next t' rest' hok =>
    rw [h, Except.ok.injEq, Prod.mk.injEq] at hok
    rw [hok.1, hok.2]

theorem scanAll_blanks_append {before : List Char} (h : ∀ c ∈ before, Text.isBlank c = true)
    (cs : List Char) : scanAll (before ++ cs) = scanAll cs := by
  induction before with
  | nil => rfl
  | cons c before ih =>
    rw [List.cons_append, scanAll, if_pos (h c (by simp))]
    exact ih fun d hd => h d (by simp [hd])

/-! ## One literal, with a sign or without -/

/-- A literal starts with a visible character. -/
theorem isBlank_eq_false_of_scan? {c : Char} {cs rest : List Char} {l : Literal}
    (h : Literal.scan? (c :: cs) = some (l, rest)) : Text.isBlank c = false := by
  rw [Literal.scan?] at h
  by_cases hamp : c = '&'
  · subst hamp
    decide
  · rw [if_neg hamp] at h
    by_cases hstart : Literal.isDecimalStart c = true
    · apply Text.isBlank_eq_false
      apply Literal.visible_of_isPart
      rw [Literal.isDecimalStart, Bool.or_eq_true, beq_iff_eq] at hstart
      rcases hstart with hd | rfl
      · exact Literal.isPart_of_isDigit hd
      · decide
    · rw [if_neg hstart] at h
      exact absurd h (by simp)

/-- A literal is one lexeme, whatever follows that cannot continue it. -/
theorem scanAll_literal_append {cs tail : List Char} {l : Literal}
    (hscan : Literal.scan? cs = some (l, [])) (htail : EndsLiteral tail) :
    scanAll (cs ++ tail) = (scanAll tail).map (literal l :: ·) := by
  rcases cs with _ | ⟨c, cs⟩
  · exact absurd hscan (by simp [Literal.scan?])
  have hnext : next c (cs ++ tail) = .ok (literal l, tail) := by
    have hall := Literal.scan?_append htail hscan
    rw [List.cons_append, List.nil_append] at hall
    rw [next, hall]
  exact scanAll_cons_of_next (isBlank_eq_false_of_scan? hscan) hnext

/-- A line that holds one literal and blanks has one lexeme. -/
theorem scanAll_literal {cs after : List Char} {l : Literal}
    (hscan : Literal.scan? cs = some (l, [])) (hafter : ∀ c ∈ after, Text.isBlank c = true) :
    scanAll (cs ++ after) = .ok [literal l] := by
  have hempty : scanAll after = .ok [] := by
    have hnil := scanAll_blanks_append hafter []
    rw [List.append_nil] at hnil
    rw [hnil, scanAll]
  rw [scanAll_literal_append hscan (EndsLiteral.of_blank hafter), hempty]
  rfl

theorem scanAll_minus (cs : List Char) :
    scanAll ('-' :: cs) = (scanAll cs).map (operator .minus :: ·) :=
  scanAll_cons_of_next (by decide) rfl

theorem scanAll_plus (cs : List Char) :
    scanAll ('+' :: cs) = (scanAll cs).map (operator .plus :: ·) :=
  scanAll_cons_of_next (by decide) rfl

end Lexeme

namespace Session

open Lexeme

/-- **A typed number as a line** is an expression of one literal, negated if the sign
in front says so. -/
theorem scanAll_of_splitSign {cs : List Char} {l : Literal}
    (hscan : Literal.scan? (splitSign (Text.trim cs)).2 = some (l, [])) :
    ∃ ts, scanAll cs = .ok ts ∧ Expr.ofLexemes ts =
      if (splitSign (Text.trim cs)).1 then .negate (.literal l) else .literal l := by
  obtain ⟨before, after, hcs, hbefore, hafter⟩ := Text.trim_spec cs
  generalize Text.trim cs = body at hcs hscan
  rw [hcs, scanAll_blanks_append hbefore]
  -- the sign is a lexeme of its own, and blanks after it are dropped
  have hsigned : ∀ ds, Literal.scan? (Text.trimStart ds) = some (l, []) →
      scanAll (ds ++ after) = .ok [literal l] := by
    intro ds hds
    obtain ⟨blanks, hsplit, hblanks⟩ := Text.trimStart_spec ds
    rw [hsplit, List.append_assoc, scanAll_blanks_append hblanks]
    exact scanAll_literal hds hafter
  rcases body with _ | ⟨c, ds⟩
  · exact absurd hscan (by simp [splitSign, Literal.scan?])
  · by_cases hminus : c = '-'
    · subst hminus
      refine ⟨[operator .minus, literal l], ?_, rfl⟩
      rw [List.cons_append, scanAll_minus, hsigned ds hscan]
      rfl
    · by_cases hplus : c = '+'
      · subst hplus
        refine ⟨[operator .plus, literal l], ?_, rfl⟩
        rw [List.cons_append, scanAll_plus, hsigned ds hscan]
        rfl
      · have hsplit : splitSign (c :: ds) = (false, c :: ds) := by
          simp [splitSign, hminus, hplus]
        rw [hsplit] at hscan ⊢
        exact ⟨[literal l], scanAll_literal hscan hafter, rfl⟩

/-- A typed number is the value of its literal, turned if the sign says so. -/
theorem ofText_of_scan? (s : Session) {text : String} {l : Literal}
    (hscan : Literal.scan? (splitSign (Text.trim text.toList)).2 = some (l, [])) :
    s.ofText text = (s.ofLiteral l).andThen fun v =>
      if (splitSign (Text.trim text.toList)).1 then s.negate v else .done v := by
  simp only [ofText, hscan]
  rfl

/-- A text that is no number has a syntax error. -/
theorem exists_scan?_of_ofText {s : Session} {text : String}
    (h : ∀ f, (s.ofText text).result = .error f → f.cause ≠ .syntaxError) :
    ∃ l, Literal.scan? (splitSign (Text.trim text.toList)).2 = some (l, []) := by
  by_contra hnone
  have hfail : s.ofText text = .fail (.badSyntax "NOT A NUMBER") := by
    rcases hscan : Literal.scan? (splitSign (Text.trim text.toList)).2 with _ | ⟨l, _ | _⟩
    · simp only [ofText, hscan]
    · exact absurd ⟨l, hscan⟩ hnone
    · simp only [ofText, hscan]
  rw [hfail] at h
  exact h _ rfl rfl

/-- **Two readers of a signed literal agree.** Whatever the session, a text that is read
as a number without a syntax error is, as a line, the same computation: the same value
or the same fault, and the same messages in the same order. -/
theorem evaluate_eq_ofText (s : Session) (line : String)
    (h : ∀ f, (s.ofText line).result = .error f → f.cause ≠ .syntaxError) :
    s.evaluate line = s.ofText line := by
  obtain ⟨l, hscan⟩ := exists_scan?_of_ofText h
  obtain ⟨ts, hts, hexpr⟩ := scanAll_of_splitSign hscan
  rw [s.evaluate_of_scanAll hts, hexpr, ofText_of_scan? s hscan]
  by_cases hneg : (splitSign (Text.trim line.toList)).1 = true
  · simp only [if_pos hneg]
    rfl
  · simp only [if_neg hneg]
    rw [Run.andThen_done]
    rfl

/-- A number too large for a single, with blanks of three sorts around the sign and
behind: a soft session tells so, and goes on with the largest one, turned. -/
theorem evaluate_eq_ofText_overflowing :
    (∀ f, (ofText ⟨.soft false, true⟩ "\t- \u00a01E39\n").result = .error f →
        f.cause ≠ .syntaxError) ∧
      (evaluate ⟨.soft false, true⟩ "\t- \u00a01E39\n").messages = ["OVERFLOW"] ∧
      evaluate ⟨.soft false, true⟩ "\t- \u00a01E39\n" =
        ofText ⟨.soft false, true⟩ "\t- \u00a01E39\n" := by
  have hok : (ofText ⟨.soft false, true⟩ "\t- \u00a01E39\n").result =
      .ok (.float .single (.max true)) := by
    unfold ofText
    decide +kernel
  have hread : ∀ f, (ofText ⟨.soft false, true⟩ "\t- \u00a01E39\n").result = .error f →
      f.cause ≠ .syntaxError := by
    intro f hf
    rw [hok] at hf
    exact absurd hf (by simp)
  have hagree := evaluate_eq_ofText ⟨.soft false, true⟩ "\t- \u00a01E39\n" hread
  refine ⟨hread, ?_, hagree⟩
  rw [hagree]
  unfold ofText
  decide +kernel

end Session

end BasicNumerics
