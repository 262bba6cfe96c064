import SelectionMerge.Proofs.Document.Words

/-!
# Tokens are spelled

The numbers among the tokens of a text are spelled as numbers. The scanner keeps this of the tokens that it
has read, and of a number that it is in the middle of that the number can go on from there
(`Scanner.Spelled`); so it holds of all tokens at the end (`spelled_tokens`).
-/

namespace SelectionMerge
set_option autoImplicit false

/-- What a step and its continuation come to, if they come to something. -/
theorem exists_of_bind_eq_ok {ε α β : Type} {step : Except ε α} {next : α → Except ε β} {b : β}
    (h : step >>= next = .ok b) : ∃ a, step = .ok a ∧ next a = .ok b := by
  cases step with
  | error => cases h
  | ok a => exact ⟨a, rfl, h⟩

/-- A number is spelled as one. Other tokens always are. -/
def Lexeme.Spelled : Lexeme → Prop
  | .int text => NumberPhase.number? text = some (.int text)
  | .float text => NumberPhase.number? text = some (.float text)
  | _ => True

namespace NumberPhase

/-- A number goes on with a further character. -/
theorem read?_append {cs : List Char} {c : Char} {phase after : NumberPhase} (h : read? cs = some phase)
    (hnext : phase.next? c = some after) : read? (cs ++ [c]) = some after := by
  cases cs with
  | nil => cases h
  | cons d cs =>
    obtain ⟨first, hfirst, hrest⟩ := Option.bind_eq_some_iff.1 h
    refine Option.bind_eq_some_iff.2 ⟨first, hfirst, ?_⟩
    simp only [List.append_eq, List.foldlM_append, hrest, List.foldlM_cons, List.foldlM_nil]
    simp [hnext]

/-- What a number comes to when it is complete. -/
theorem spelled_of_read? {text : String} {phase : NumberPhase} {lexeme : Lexeme}
    (h : read? text.toList = some phase) (hlexeme : phase.lexeme? text = some lexeme) : lexeme.Spelled := by
  have hnumber : number? text = some lexeme := Option.bind_eq_some_iff.2 ⟨phase, h, hlexeme⟩
  cases phase <;> simp only [lexeme?, reduceCtorEq, Option.some.injEq] at hlexeme <;> subst hlexeme <;> exact hnumber

end NumberPhase

namespace Scanner

/-- The tokens that were read are spelled, and a number that is being read can go on. -/
structure Spelled (scanner : Scanner) : Prop where
  tokens : ∀ token ∈ scanner.tokens, token.lexeme.Spelled
  number : ∀ phase read, scanner.mode = .number phase read → NumberPhase.read? read.reverse = some phase

variable {scanner after : Scanner} {c : Char}

theorem Spelled.emit (h : scanner.Spelled) (lexeme : Lexeme) (hlexeme : lexeme.Spelled) (stop : Nat) :
    (scanner.emit lexeme stop).Spelled :=
  ⟨List.forall_mem_cons.2 ⟨hlexeme, h.tokens⟩, fun _ _ hmode => by cases hmode⟩

/-- A mode in which no number is read changes nothing. -/
theorem Spelled.turn (h : scanner.Spelled) {mode : ScanMode} (hmode : ∀ phase read, mode ≠ .number phase read)
    (start : Nat) : Spelled { scanner with mode, start } :=
  ⟨h.tokens, fun phase read heq => absurd heq (hmode phase read)⟩

theorem Spelled.count (h : scanner.Spelled) {phase : NumberPhase} {read : List Char}
    (hread : NumberPhase.read? read.reverse = some phase) (start : Nat) :
    Spelled { scanner with mode := .number phase read, start } := by
  refine ⟨h.tokens, fun _ _ hmode => ?_⟩
  obtain ⟨rfl, rfl⟩ := ScanMode.number.inj hmode
  exact hread

theorem spelled_nameLexeme {read : List Char} {lexeme : Lexeme} (h : nameLexeme read = .ok lexeme) :
    lexeme.Spelled := by
  unfold nameLexeme at h
  split at h <;> cases h
  trivial

theorem spelled_numberLexeme {phase : NumberPhase} {read : List Char} {lexeme : Lexeme}
    (hread : NumberPhase.read? read.reverse = some phase) (h : numberLexeme phase read = .ok lexeme) :
    lexeme.Spelled := by
  unfold numberLexeme at h
  split at h
  next hlexeme =>
    cases h
    exact NumberPhase.spelled_of_read? (by rwa [String.toList_ofList]) hlexeme
  next => cases h

theorem spelled_simpleLexeme {read : List Char} {lexeme : Lexeme} (h : simpleLexeme read = .ok lexeme) :
    lexeme.Spelled := by
  unfold simpleLexeme at h
  split at h <;> cases h
  trivial

theorem Spelled.begin (h : scanner.Spelled) (hstep : scanner.begin c = .ok after) : after.Spelled := by
  unfold Scanner.begin enter at hstep
  -- A number begins with a minus or a digit.
  split at hstep
  next => cases hstep; exact h.turn (by simp) _
  split at hstep
  next => cases hstep; exact h.turn (by simp) _
  split at hstep
  next => cases hstep; exact h.turn (by simp) _
  split at hstep
  next => cases hstep; exact h.turn (by simp) _
  split at hstep
  next hminus =>
    cases hstep
    exact h.count (by simp [NumberPhase.read?, NumberPhase.first?, hminus]) _
  split at hstep
  next hminus hzero =>
    cases hstep
    exact h.count (by simp [NumberPhase.read?, NumberPhase.first?, hminus, hzero]) _
  split at hstep
  next hminus hzero hdigit =>
    cases hstep
    exact h.count (by simp [NumberPhase.read?, NumberPhase.first?, hminus, hzero, hdigit]) _
  split at hstep
  next => cases hstep; exact h.turn (by simp) _
  split at hstep
  next => cases hstep; exact (h.turn (by simp) _).emit (.mark c) trivial _
  next => cases hstep

theorem Spelled.read (h : scanner.Spelled) (hstep : scanner.read c = .ok after) : after.Spelled := by
  unfold Scanner.read at hstep
  split at hstep
  case h_1 => exact h.begin hstep
  case h_2 => cases hstep; exact h.turn (by split <;> simp) _
  case h_3 =>
    split at hstep
    next => cases hstep
    next =>
      split at hstep <;> cases hstep
      · exact h.turn (by simp) _
      · exact h.emit .ellipsis trivial _
  case h_4 =>
    split at hstep
    next => cases hstep; exact h.turn (by simp) _
    next =>
      obtain ⟨lexeme, hlexeme, hstep⟩ := exists_of_bind_eq_ok hstep
      exact (h.emit lexeme (spelled_nameLexeme hlexeme) _).begin hstep
  case h_5 phase read hmode =>
    split at hstep
    next hnext =>
      cases hstep
      exact h.count (by rw [List.reverse_cons]; exact NumberPhase.read?_append (h.number _ _ hmode) hnext) _
    next =>
      split at hstep
      next => cases hstep
      next =>
        obtain ⟨lexeme, hlexeme, hstep⟩ := exists_of_bind_eq_ok hstep
        exact (h.emit lexeme (spelled_numberLexeme (h.number _ _ hmode) hlexeme) _).begin hstep
  case h_6 =>
    split at hstep
    next => cases hstep; exact h.turn (by split <;> simp) _
    next =>
      split at hstep
      next => exact (h.emit (.string "") trivial _).begin hstep
      next =>
        split at hstep <;> cases hstep
        exact h.turn (by simp) _
  case h_7 =>
    split at hstep
    next => cases hstep
    next =>
      split at hstep
      next =>
        obtain ⟨lexeme, hlexeme, hstep⟩ := exists_of_bind_eq_ok hstep
        cases hstep
        exact h.emit lexeme (spelled_simpleLexeme hlexeme) _
      next => cases hstep; exact h.turn (by simp) _
  case h_8 read quotes hmode =>
    split at hstep
    next =>
      split at hstep <;> cases hstep
      · exact h.turn (by simp) _
      · exact h.emit (blockLexeme read) trivial _
    next => cases hstep; exact h.turn (by split <;> simp) _
  case h_9 =>
    split at hstep <;> cases hstep <;> exact h.turn (by split <;> simp) _

theorem Spelled.step (h : scanner.Spelled) (hstep : scanner.step c = .ok after) : after.Spelled := by
  unfold Scanner.step at hstep
  cases hread : scanner.read c with
  | error => rw [hread] at hstep; cases hstep
  | ok next =>
    rw [hread] at hstep
    cases hstep
    exact ⟨(h.read hread).tokens, (h.read hread).number⟩

theorem Spelled.run {cs : List Char} (h : scanner.Spelled) (hrun : cs.foldlM Scanner.step scanner = .ok after) :
    after.Spelled := by
  induction cs generalizing scanner with
  | nil =>
    cases hrun
    exact h
  | cons c cs ih =>
    rw [List.foldlM_cons] at hrun
    obtain ⟨next, hstep, hrun⟩ := exists_of_bind_eq_ok hrun
    exact ih (h.step hstep) hrun

theorem Spelled.finish (h : scanner.Spelled) {tokens : List Token} (hfinish : scanner.finish = .ok tokens) :
    ∀ token ∈ tokens, token.lexeme.Spelled := by
  have hreverse : ∀ {scanner : Scanner}, scanner.Spelled → ∀ token ∈ scanner.tokens.reverse, token.lexeme.Spelled :=
    fun h token htoken => h.tokens token (List.mem_reverse.1 htoken)
  unfold Scanner.finish at hfinish
  split at hfinish
  case h_1 | h_2 => cases hfinish; exact hreverse h
  case h_3 =>
    obtain ⟨lexeme, hlexeme, hfinish⟩ := exists_of_bind_eq_ok hfinish
    cases hfinish
    exact hreverse (h.emit lexeme (spelled_nameLexeme hlexeme) _)
  case h_4 hmode =>
    obtain ⟨lexeme, hlexeme, hfinish⟩ := exists_of_bind_eq_ok hfinish
    cases hfinish
    exact hreverse (h.emit lexeme (spelled_numberLexeme (h.number _ _ hmode) hlexeme) _)
  case h_5 => cases hfinish; exact hreverse (h.emit (.string "") trivial _)
  case h_6 => cases hfinish

end Scanner

/-- **Tokens are spelled.** -/
theorem spelled_tokens {text : String} {found : List Token} (h : tokens text = .ok found) :
    ∀ token ∈ found, token.lexeme.Spelled := by
  obtain ⟨scanner, hrun, hfinish⟩ := exists_of_bind_eq_ok h
  have hinitial : Scanner.initial.Spelled := ⟨by simp [Scanner.initial], fun _ _ hmode => by cases hmode⟩
  exact (hinitial.run hrun).finish hfinish

end SelectionMerge
