/-
Numbers in a stream of tokens.

A stored program holds its numbers one after another, with nothing between them: the
first byte of a token tells how long it is, and there the next one starts. Cutting a
stream is only that rule, applied from the left (`cutTokens`). Two things make it undo
writing. A token is as long as its first byte says (`IsToken`), so a stream falls apart
into the tokens it was joined from, whatever follows each of them; and a token is read as
the value it was written for, bit by bit, a zero with its idle bits included. The length and
the value are looked up in tables of their own, and first these are shown to agree: each says
of a lead byte what the form of its token says (`TokenForm.ofLead?`).

An integer has several tokens. The one that is written is the shortest: a shorter text of
bytes is read as another number or as none.
-/
import BasicNumerics.Value.Token
import Mathlib.Tactic.Common

set_option autoImplicit false

namespace BasicNumerics

/-! ## Cutting a stream -/

/-- The tokens of a stream, each as long as its first byte tells. There are none where a
byte starts no token, or where the stream ends inside one. -/
def cutTokens : List UInt8 → Option (List (List UInt8))
  | [] => some []
  | lead :: rest =>
    match tokenLength? lead with
    | none => none
    | some n =>
      if n - 1 ≤ rest.length then
        (cutTokens (rest.drop (n - 1))).map ((lead :: rest.take (n - 1)) :: ·)
      else none
termination_by stream => stream.length
decreasing_by
  simp only [List.length_drop, List.length_cons]
  omega

/-- Bytes that are as many as the first of them tells. -/
def IsToken (token : List UInt8) : Prop := token.head?.bind tokenLength? = some token.length

/-- **One cut:** a token comes off whole, and what follows it is cut on its own. -/
theorem cutTokens_append {token : List UInt8} (h : IsToken token) (rest : List UInt8) :
    cutTokens (token ++ rest) = (cutTokens rest).map (token :: ·) := by
  obtain _ | ⟨lead, bytes⟩ := token
  · exact absurd h (by simp [IsToken])
  · have hlength : tokenLength? lead = some (bytes.length + 1) := h
    rw [List.cons_append, cutTokens, hlength]
    simp only [Nat.add_sub_cancel, List.length_append, List.take_left, List.drop_left]
    rw [if_pos (Nat.le_add_right _ _)]

/-- **Cutting undoes joining.** -/
theorem cutTokens_flatten {tokens : List (List UInt8)} (h : ∀ t ∈ tokens, IsToken t) :
    cutTokens tokens.flatten = some tokens := by
  induction tokens with
  | nil => simp [cutTokens]
  | cons token tokens ih =>
    have htail : ∀ t ∈ tokens, IsToken t := fun t ht => h t (List.mem_cons_of_mem _ ht)
    rw [List.flatten_cons, cutTokens_append (h token List.mem_cons_self), ih htail]
    rfl

/-! ## Lead bytes -/

/-- The forms of a number token. -/
inductive TokenForm where
  /-- The numbers from zero to ten, each with a lead byte of its own. -/
  | small (n : Nat)
  | byte
  | word
  | hex
  | octal
  | line
  | float (p : Precision)
deriving DecidableEq, Repr

namespace TokenForm

/-- What a lead byte stands for, by all three tables at once (`tokenLength?_eq`,
`Integer.ofToken_cons`, `Value.ofToken_eq`). -/
def ofLead? (lead : UInt8) : Option TokenForm :=
  if 0x11 ≤ lead.toNat ∧ lead.toNat ≤ 0x1b then some (small (lead.toNat - 0x11))
  else if lead = 0x0f then some byte
  else if lead = 0x1c then some word
  else if lead = 0x0c then some hex
  else if lead = 0x0b then some octal
  else if lead = 0x0e then some line
  else if lead = Precision.leadByte .single then some (float .single)
  else if lead = Precision.leadByte .double then some (float .double)
  else none

/-- Bytes of the token, the lead byte included. -/
def length : TokenForm → Nat
  | small _ => 1
  | byte => 2
  | word | hex | octal | line => 3
  | float p => p.size + 1

/-- The lead bytes of a form. -/
def HasLead (lead : UInt8) : TokenForm → Prop
  | small k => lead.toNat = 0x11 + k ∧ k ≤ 10
  | byte => lead = 0x0f
  | word => lead = 0x1c
  | hex => lead = 0x0c
  | octal => lead = 0x0b
  | line => lead = 0x0e
  | float p => lead = p.leadByte

theorem hasLead_of_ofLead? {lead : UInt8} {form : TokenForm} (h : ofLead? lead = some form) :
    form.HasLead lead := by
  unfold ofLead? at h
  split_ifs at h <;> obtain rfl := Option.some.inj h
  · next hsmall => exact ⟨by omega, by omega⟩
  all_goals assumption

theorem ofLead?_small {k : Nat} (h : k ≤ 10) :
    ofLead? (UInt8.ofNat (0x11 + k)) = some (small k) := by
  have hlead : (UInt8.ofNat (0x11 + k)).toNat = 0x11 + k := by
    rw [UInt8.toNat_ofNat']
    omega
  rw [ofLead?, hlead, if_pos (by omega), Nat.add_sub_cancel_left]

end TokenForm

/-- **The lengths of tokens** are those of the forms that the lead bytes stand for. -/
theorem tokenLength?_eq (lead : UInt8) :
    tokenLength? lead = (TokenForm.ofLead? lead).map TokenForm.length := by
  unfold tokenLength? TokenForm.ofLead?
  split_ifs <;> simp_all [TokenForm.length, Precision.size, Precision.leadByte]

/-- **An integer is read by its form,** from as many bytes as the form has. -/
theorem Integer.ofToken_cons (lead : UInt8) (bytes : List UInt8) :
    Integer.ofToken (lead :: bytes) =
      match TokenForm.ofLead? lead with
      | none => .error (.badBytes "BAD NUMBER TOKEN")
      | some form =>
        if bytes.length + 1 = form.length then
          match form with
          | .small n => ofInt .signed n
          | .byte => ofInt .signed (Bytes.toNat bytes)
          | .word | .hex | .octal | .line => ofBytes bytes
          | .float _ => .error (.badBytes "BAD NUMBER TOKEN")
        else .error (.badBytes "BAD NUMBER TOKEN") := by
  simp only [ofToken, tokenLength?_eq]
  rcases hform : TokenForm.ofLead? lead with _ | form
  · rw [Option.map_none, if_pos (by simp)]
  · rw [Option.map_some, List.length_cons]
    by_cases hlength : bytes.length + 1 = form.length
    · rw [if_neg (by simp [hlength])]
      simp only [if_pos hlength]
      have hlead := TokenForm.hasLead_of_ofLead? hform
      cases form with
      | small k =>
        obtain ⟨hk, hle⟩ := hlead
        rw [if_pos (by omega), hk, Nat.add_sub_cancel_left]
      | byte | word | hex | octal | line =>
        obtain rfl := hlead
        rfl
      | float p =>
        obtain rfl := hlead
        cases p <;> rfl
    · rw [if_pos (by simpa [eq_comm] using hlength)]
      simp only [if_neg hlength]

/-- **A value is read by its form.** -/
theorem Value.ofToken_eq (token : List UInt8) :
    Value.ofToken token =
      match token.head?.bind TokenForm.ofLead? with
      | some (.float p) => (Floating.ofToken token).map (float p)
      | _ => (Integer.ofToken token).map integer := by
  unfold ofToken
  split_ifs with hsingle hdouble
  · rw [hsingle]
    rfl
  · rw [hdouble]
    rfl
  · split
    · next p hp =>
      obtain ⟨lead, hhead, hform⟩ := Option.bind_eq_some_iff.mp hp
      have hlead := TokenForm.hasLead_of_ofLead? hform
      rw [hhead] at hsingle hdouble
      cases p with
      | single => exact absurd (congrArg some hlead) hsingle
      | double => exact absurd (congrArg some hlead) hdouble
    · rfl

/-! ## Tokens of integers -/

namespace Integer

variable {n : Integer} {token : List UInt8}

/-- The three forms an integer is written in, each with the numbers that take it. -/
theorem toToken_cases (n : Integer) :
    (∃ k : Nat, k ≤ 10 ∧ n.toInt .signed = k ∧ n.toToken = [UInt8.ofNat (0x11 + k)]) ∨
      (∃ k : Nat, 10 < k ∧ k ≤ 255 ∧ n.toInt .signed = k ∧
        n.toToken = [0x0f, UInt8.ofNat k]) ∨
      ((n.toInt .signed < 0 ∨ 255 < n.toInt .signed) ∧ n.toToken = 0x1c :: n.toBytes) := by
  unfold toToken
  by_cases hsmall : 0 ≤ n.toInt .signed ∧ n.toInt .signed ≤ 10
  · refine Or.inl ⟨(n.toInt .signed).toNat, by omega, by omega, ?_⟩
    rw [if_pos hsmall]
  · by_cases hbyte : 0 ≤ n.toInt .signed ∧ n.toInt .signed ≤ 255
    · refine Or.inr (Or.inl ⟨(n.toInt .signed).toNat, by omega, by omega, by omega, ?_⟩)
      rw [if_neg hsmall, if_pos hbyte]
    · refine Or.inr (Or.inr ⟨by omega, ?_⟩)
      rw [if_neg hsmall, if_neg hbyte]

theorem isToken_toToken (n : Integer) : IsToken n.toToken := by
  obtain ⟨k, hk, -, ht⟩ | ⟨k, -, -, -, ht⟩ | ⟨-, ht⟩ := n.toToken_cases
  · rw [ht, IsToken, List.head?_cons, Option.bind_some, tokenLength?_eq,
      TokenForm.ofLead?_small hk]
    rfl
  · rw [ht]
    rfl
  · rw [ht, IsToken, List.length_cons, n.length_toBytes]
    rfl

/-- **An integer is read from its token.** -/
theorem ofToken_toToken (n : Integer) : ofToken n.toToken = .ok n := by
  obtain ⟨k, hk, hn, ht⟩ | ⟨k, -, hk, hn, ht⟩ | ⟨-, ht⟩ := n.toToken_cases
  · rw [ht, ofToken_cons, TokenForm.ofLead?_small hk]
    exact ofInt_signed_eq_ok_iff.mpr hn
  · have hbyte : Bytes.toNat [UInt8.ofNat k] = k := by
      rw [Bytes.toNat, Bytes.toNat, UInt8.toNat_ofNat']
      omega
    rw [ht]
    show ofInt .signed (Bytes.toNat [UInt8.ofNat k]) = .ok n
    rw [hbyte]
    exact ofInt_signed_eq_ok_iff.mpr hn
  · have hword : TokenForm.ofLead? 0x1c = some .word := rfl
    have hlength : n.toBytes.length + 1 = TokenForm.length .word := by
      rw [n.length_toBytes, TokenForm.length]
    rw [ht, ofToken_cons, hword]
    simp only [if_pos hlength]
    exact n.ofBytes_toBytes

/-- What the bytes of an integer token are: as many as the form has, and the number that
the form makes of them. -/
theorem of_ofToken (h : ofToken token = .ok n) :
    ∃ lead bytes form, token = lead :: bytes ∧ TokenForm.ofLead? lead = some form ∧
      token.length = form.length ∧
      (∀ k, form = .small k → n.toInt .signed = k) ∧
      (form = .byte → n.toInt .signed = Bytes.toNat bytes) ∧ ∀ p, form ≠ .float p := by
  obtain _ | ⟨lead, bytes⟩ := token
  · exact absurd h (by simp [ofToken])
  · rw [ofToken_cons] at h
    obtain hform | ⟨form, hform⟩ := Option.eq_none_or_eq_some (TokenForm.ofLead? lead)
    · simp only [hform] at h
      exact absurd h (by simp)
    · simp only [hform] at h
      split at h
      · next hlength =>
        refine ⟨lead, bytes, form, rfl, hform, hlength, ?_, ?_, ?_⟩
        · rintro k rfl
          exact ofInt_signed_eq_ok_iff.mp h
        · rintro rfl
          exact ofInt_signed_eq_ok_iff.mp h
        · rintro p rfl
          exact absurd h (by simp)
      · exact absurd h (by simp)

/-- **No token of an integer is shorter than the one that is written.** -/
theorem length_toToken_le (h : ofToken token = .ok n) : n.toToken.length ≤ token.length := by
  obtain ⟨lead, bytes, form, htoken, hform, hlength, hsmall, hbyte, hfloat⟩ := of_ofToken h
  rw [hlength]
  have hthree : n.toToken.length ≤ 3 := by
    obtain ⟨k, -, -, ht⟩ | ⟨k, -, -, -, ht⟩ | ⟨-, ht⟩ := n.toToken_cases <;> rw [ht] <;> simp
  match form, hform with
  | .small k, hform =>
    obtain ⟨-, hk⟩ := TokenForm.hasLead_of_ofLead? hform
    have hn := hsmall k rfl
    obtain ⟨j, -, -, ht⟩ | ⟨j, hj, -, hnj, -⟩ | ⟨hout, -⟩ := n.toToken_cases
    · rw [ht]
      exact Nat.le_refl _
    · omega
    · omega
  | .byte, _ =>
    have hone : bytes.length = 1 := by
      rw [htoken, List.length_cons] at hlength
      exact Nat.succ.inj hlength
    have hlt := Bytes.toNat_lt bytes
    rw [hone] at hlt
    have hn := hbyte rfl
    obtain ⟨j, -, -, ht⟩ | ⟨j, -, -, -, ht⟩ | ⟨hout, -⟩ := n.toToken_cases
    · rw [ht]
      exact Nat.le_succ 1
    · rw [ht]
      exact Nat.le_refl _
    · omega
  | .word, _ => exact hthree
  | .hex, _ => exact hthree
  | .octal, _ => exact hthree
  | .line, _ => exact hthree
  | .float p, _ => exact absurd rfl (hfloat p)

end Integer

/-! ## Tokens of floating-point values -/

namespace Floating

variable {p : Precision}

theorem ofLead?_leadByte (p : Precision) :
    TokenForm.ofLead? p.leadByte = some (.float p) := by
  cases p <;> rfl

theorem isToken_toToken (x : Floating p) : IsToken x.toToken := by
  rw [IsToken, toToken, List.head?_cons, Option.bind_some, tokenLength?_eq, ofLead?_leadByte,
    List.length_cons, x.length_toBytes]
  rfl

/-- **A value is read from its token with every bit.** -/
theorem ofToken_toToken (x : Floating p) : ofToken x.toToken = .ok x := by
  rw [toToken, ofToken, if_pos ⟨rfl, x.length_toBytes⟩, x.ofBytes_toBytes]

end Floating

/-! ## Streams of values -/

namespace Value

/-- A number is written as a token and read from it. -/
theorem exists_toToken {v : Value} (h : v.kind ≠ .string) :
    ∃ token, v.toToken = .ok token ∧ IsToken token ∧ ofToken token = .ok v := by
  match v, h with
  | integer n, _ =>
    refine ⟨n.toToken, rfl, n.isToken_toToken, ?_⟩
    have hread := n.ofToken_toToken
    -- the lead byte of an integer is none of the two that stand before a float
    have hform : ∀ p, n.toToken.head?.bind TokenForm.ofLead? ≠ some (.float p) := by
      obtain ⟨lead, bytes, form, htoken, hform, -, -, -, hfloat⟩ := Integer.of_ofToken hread
      intro p hp
      rw [htoken, List.head?_cons, Option.bind_some, hform, Option.some.injEq] at hp
      exact hfloat p hp
    rw [ofToken_eq]
    split
    · next p hp => exact absurd hp (hform p)
    · rw [hread]
      rfl
  | float p x, _ =>
    refine ⟨x.toToken, rfl, x.isToken_toToken, ?_⟩
    have hform : x.toToken.head?.bind TokenForm.ofLead? = some (.float p) :=
      Floating.ofLead?_leadByte p
    rw [ofToken_eq, hform]
    simp only [x.ofToken_toToken]
    rfl
  | string s, h => exact absurd rfl h

theorem integer_of_ofToken {token : List UInt8} {n : Integer}
    (h : ofToken token = .ok (integer n)) : Integer.ofToken token = .ok n := by
  rw [ofToken_eq] at h
  split at h
  · next p hp =>
    rcases hr : (Floating.ofToken token : Except Fault (Floating p)) with f | x <;>
      rw [hr] at h <;> exact absurd h (by simp [Except.map])
  · rcases hr : Integer.ofToken token with f | m
    · rw [hr] at h
      exact absurd h (by simp [Except.map])
    · rw [hr] at h
      simp only [Except.map, Except.ok.injEq, integer.injEq] at h
      rw [h]

/-- **A stream of numbers is cut into their tokens and read back.** Every number has a
token; the tokens, joined and cut again by the length that each lead byte tells, come out
one for each number, and each is read as the number it was written for, of the same kind
and with the same bits. An integer is written in the fewest bytes: none that are fewer are
read as that integer, neither as a value nor as an integer token. -/
theorem cutTokens_stream {vs : List Value} (h : ∀ v ∈ vs, v.kind ≠ .string) :
    (∃ tokens : List (List UInt8), vs.map toToken = tokens.map .ok ∧
      cutTokens tokens.flatten = some tokens ∧ tokens.map ofToken = vs.map .ok) ∧
      ∀ (n : Integer) (bytes : List UInt8), bytes.length < n.toToken.length →
        ofToken bytes ≠ .ok (integer n) ∧ Integer.ofToken bytes ≠ .ok n := by
  refine ⟨?_, ?_⟩
  · have hall : ∃ tokens : List (List UInt8), vs.map toToken = tokens.map .ok ∧
        (∀ t ∈ tokens, IsToken t) ∧ tokens.map ofToken = vs.map .ok := by
      induction vs with
      | nil => exact ⟨[], rfl, by simp, rfl⟩
      | cons v vs ih =>
        obtain ⟨token, hwrite, htoken, hread⟩ := exists_toToken (h v List.mem_cons_self)
        obtain ⟨tokens, hwrites, htokens, hreads⟩ :=
          ih fun w hw => h w (List.mem_cons_of_mem _ hw)
        refine ⟨token :: tokens, ?_, ?_, ?_⟩
        · rw [List.map_cons, List.map_cons, hwrite, hwrites]
        · rintro t (- | ⟨-, ht⟩)
          · exact htoken
          · exact htokens t ht
        · rw [List.map_cons, List.map_cons, hread, hreads]
    obtain ⟨tokens, hwrites, htokens, hreads⟩ := hall
    exact ⟨tokens, hwrites, cutTokens_flatten htokens, hreads⟩
  · intro n bytes hshort
    have hinteger : Integer.ofToken bytes ≠ .ok n := by
      intro hread
      have := Integer.length_toToken_le hread
      omega
    exact ⟨fun hread => hinteger (integer_of_ofToken hread), hinteger⟩

/-- Each form of an integer, and a zero whose other bits are all set, in one stream. -/
theorem cutTokens_stream_forms :
    let zero : Value := float .single (.ofWord 0xFFFFFF)
    let vs : List Value := [integer ⟨7⟩, zero, integer ⟨200⟩, integer ⟨0xFFFF⟩]
    let tokens : List (List UInt8) :=
      [[0x18], [0x1d, 0xff, 0xff, 0xff, 0], [0x0f, 200], [0x1c, 0xff, 0xff]]
    (∀ v ∈ vs, v.kind ≠ .string) ∧ vs.map toToken = tokens.map .ok ∧
      cutTokens [0x18, 0x1d, 0xff, 0xff, 0xff, 0, 0x0f, 200, 0x1c, 0xff, 0xff] = some tokens ∧
      tokens.map ofToken = vs.map .ok := by
  intro zero vs tokens
  have hnumbers : ∀ v ∈ vs, v.kind ≠ .string := by decide
  obtain ⟨written, hwrite, hcut, hread⟩ := (cutTokens_stream hnumbers).1
  have hwrites : vs.map toToken = tokens.map .ok := by decide
  have htokens : written = tokens := by
    refine List.map_inj_right (f := (.ok : List UInt8 → Except Fault (List UInt8))) ?_ |>.mp
      (hwrite.symm.trans hwrites)
    exact fun _ _ => Except.ok.inj
  rw [htokens] at hcut hread
  exact ⟨hnumbers, hwrites, hcut, hread⟩

end Value

end BasicNumerics
