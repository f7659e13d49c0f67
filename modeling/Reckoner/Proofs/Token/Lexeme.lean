import Reckoner.Proofs.Double.Reading
import Reckoner.Proofs.Token.Number

/-!
# Runs of characters

Which run of characters stands for which lexeme, apart from how a text is cut into runs. What
stands in front of a text is such a run, and such a run stands in front of every text in which no
name and no number goes on behind it.
-/

namespace Reckoner.Token

open Reckoner.Text

/-- What stands in front of a text that is spelled as it stands. -/
abbrev reading (c : Char) (rest : List Char) : Reading := front (fun run => run) c rest

/-- A run of characters stands for a lexeme. -/
inductive Spells : List Char → Lexeme → Prop
  | operator {c : Char} {sign : String} (h : operatorSign? c = some sign) :
      Spells [c] (.operator sign)
  | openParen : Spells ['('] .openParen
  | closeParen : Spells [')'] .closeParen
  | comma : Spells [','] .comma
  | pi : Spells ['π'] (.constant Constant.pi.name)
  | name {c : Char} {rest : List Char} (hdigit : isDigit c = false) (hpi : c ≠ 'π')
      (hstart : isNameStart c = true) (hrest : ∀ d ∈ rest, isNameChar d = true) :
      Spells (c :: rest) (named (String.ofList (c :: rest)))
  | number {run power : List Char} {x : Float} (hrun : IsMantissa run) (hpower : IsPower power)
      (hread : Double.read? (run ++ power) = some x) : Spells (run ++ power) (.number x)
  | imaginary {run power : List Char} {x : Float} (hrun : IsMantissa run)
      (hpower : IsPower power) (hread : Double.read? (run ++ power) = some x) :
      Spells (run ++ power ++ ['i']) (.imaginary x)

/-- The run is the longest one in front of the rest that stands for a lexeme. -/
inductive IsLongest : List Char → Lexeme → List Char → Prop
  | operator {c : Char} {sign : String} {rest : List Char} (h : operatorSign? c = some sign) :
      IsLongest [c] (.operator sign) rest
  | openParen {rest : List Char} : IsLongest ['('] .openParen rest
  | closeParen {rest : List Char} : IsLongest [')'] .closeParen rest
  | comma {rest : List Char} : IsLongest [','] .comma rest
  | pi {rest : List Char} : IsLongest ['π'] (.constant Constant.pi.name) rest
  | name {c : Char} {run rest : List Char} (hdigit : isDigit c = false) (hpi : c ≠ 'π')
      (hstart : isNameStart c = true) (hrun : ∀ d ∈ run, isNameChar d = true)
      (hends : ∀ d ∈ rest.head?, isNameChar d = false) :
      IsLongest (c :: run) (named (String.ofList (c :: run))) rest
  | number {run power rest : List Char} {x : Float} (h : IsLongestNumber run power rest)
      (hread : Double.read? (run ++ power) = some x) (hunit : ¬ OpensUnit rest) :
      IsLongest (run ++ power) (.number x) rest
  | imaginary {run power rest : List Char} {x : Float}
      (h : IsLongestNumber run power ('i' :: rest)) (hread : Double.read? (run ++ power) = some x)
      (hends : ∀ c ∈ rest.head?, isNameChar c = false) :
      IsLongest (run ++ power ++ ['i']) (.imaginary x) rest

theorem IsLongest.spells {run rest : List Char} {l : Lexeme} (h : IsLongest run l rest) :
    Spells run l := by
  cases h with
  | operator h => exact .operator h
  | openParen => exact .openParen
  | closeParen => exact .closeParen
  | comma => exact .comma
  | pi => exact .pi
  | name hdigit hpi hstart hrun => exact .name hdigit hpi hstart hrun
  | number h hread => exact .number h.isMantissa h.isPower hread
  | imaginary h hread => exact .imaginary h.isMantissa h.isPower hread

/-! ## What stands in front -/

theorem operatorSign?_of_isNameChar {c : Char} (h : isNameChar c = true) :
    operatorSign? c = none := by
  unfold operatorSign?
  split
  case h_8 => rfl
  all_goals
    exfalso
    revert h
    decide

theorem sign?_of_isNameChar {c : Char} (h : isNameChar c = true) (hpi : c ≠ 'π') :
    sign? c = none := by
  have hne {d : Char} (hd : isNameChar d = false) : c ≠ d := by
    rintro rfl
    rw [h] at hd
    cases hd
  have hopen : c ≠ '(' := hne (by decide)
  have hclose : c ≠ ')' := hne (by decide)
  have hcomma : c ≠ ',' := hne (by decide)
  simp only [sign?, operatorSign?_of_isNameChar h, if_neg, hopen, hclose, hcomma, hpi,
    not_false_eq_true]

/-- A character that is a lexeme by itself is the longest one. -/
theorem isLongest_of_sign? {c : Char} {l : Lexeme} (h : sign? c = some l) (rest : List Char) :
    IsLongest [c] l rest := by
  unfold sign? at h
  split at h
  case h_1 sign hoperator =>
      cases h
      exact .operator hoperator
  case h_2 =>
      split_ifs at h with hopen hclose hcomma hpi
      all_goals
        cases h
        subst c
      · exact .openParen
      · exact .closeParen
      · exact .comma
      · exact .pi

theorem Spells.ne_nil {cs : List Char} {l : Lexeme} (h : Spells cs l) : cs ≠ [] := by
  cases h with
  | number hrun => simp [hrun.ne]
  | imaginary hrun => simp [hrun.ne]
  | _ => simp

theorem front_number {c : Char} (hc : isDigit c = true ∨ c = '.') (rest : List Char) :
    reading c rest = number (fun run => run) (c :: rest) := by
  unfold reading front
  rw [if_pos]
  rcases hc with hc | rfl
  · rw [hc, Bool.true_or]
  · rfl

theorem front_name {c : Char} (hdigit : isDigit c = false) (hpi : c ≠ 'π')
    (hstart : isNameStart c = true) (rest : List Char) :
    reading c rest = .ok (named (String.ofList ((c :: rest).takeWhile isNameChar)),
      ((c :: rest).takeWhile isNameChar).length) := by
  have hname := isNameChar_of_isNameStart hstart
  have hpoint : c ≠ '.' := by
    rintro rfl
    revert hname
    decide
  have hstop : ¬(isDigit c || c == '.') = true := by simp [hdigit, hpoint]
  unfold reading front
  rw [if_neg hstop, sign?_of_isNameChar hname hpi]
  exact if_pos hstart

/-- The longest lexeme in front of a text is what is read there. -/
theorem IsLongest.reading {c : Char} {cs rest : List Char} {l : Lexeme}
    (h : IsLongest (c :: cs) l rest) : reading c (cs ++ rest) = .ok (l, cs.length + 1) := by
  generalize htext : c :: cs = text at h
  cases h with
  | @operator d sign _ h =>
      cases htext
      unfold operatorSign? at h
      split at h
      all_goals cases h
      all_goals rfl
  | openParen => cases htext; rfl
  | closeParen => cases htext; rfl
  | comma => cases htext; rfl
  | pi => cases htext; rfl
  | @name c cs _ hdigit hpi hstart hchars hends =>
      cases htext
      have hall : ∀ d ∈ c :: cs, isNameChar d = true :=
        List.forall_mem_cons.mpr ⟨isNameChar_of_isNameStart hstart, hchars⟩
      have hrun := (takeWhile_append_of_head hall hends).1
      rw [List.cons_append] at hrun
      rw [front_name hdigit hpi hstart, hrun]
      rfl
  | @number run power _ x hlongest hread hunit =>
      obtain ⟨d, run', rfl, hd⟩ := hlongest.isMantissa.eq_cons
      have hnumber := number_eq hlongest hread
      rw [if_neg (fun hunit' => hunit (imaginaryUnit_iff.mp hunit'))] at hnumber
      rw [List.cons_append] at htext
      cases htext
      rw [front_number hd]
      refine hnumber.trans ?_
      simp only [List.length_cons, List.length_append]
      congr 2
      omega
  | @imaginary run power _ x hlongest hread hends =>
      obtain ⟨d, run', rfl, hd⟩ := hlongest.isMantissa.eq_cons
      have hnumber := number_eq hlongest hread
      rw [if_pos (imaginaryUnit_iff.mpr ⟨rest, rfl, hends⟩)] at hnumber
      rw [List.cons_append, List.cons_append] at htext
      cases htext
      rw [front_number hd, List.append_assoc _ ['i']]
      refine hnumber.trans ?_
      simp only [List.length_cons, List.length_append, List.length_nil]
      congr 2
      omega

/-- Where no name and no number goes on, a run that stands for a lexeme is the longest one. -/
theorem Spells.isLongest {cs rest : List Char} {l : Lexeme} (h : Spells cs l)
    (hrest : Boundary rest) : IsLongest cs l rest := by
  have hname (c : Char) (hc : isNameChar c = true) : c ∉ rest.head? := by
    intro hmem
    rw [(hrest c hmem).1] at hc
    cases hc
  cases h with
  | operator h => exact .operator h
  | openParen => exact .openParen
  | closeParen => exact .closeParen
  | comma => exact .comma
  | pi => exact .pi
  | name hdigit hpi hstart hchars =>
      exact .name hdigit hpi hstart hchars fun d hd => (hrest d hd).1
  | number hrun hpower hread =>
      have hletters : ∀ c ∈ rest.head?, isDigit c = false ∧ c ≠ '.' ∧ c ≠ 'e' ∧ c ≠ 'E' := by
        intro c hc
        obtain ⟨hdigit, hpoint⟩ := isDigit_of_boundary hrest c hc
        exact ⟨hdigit, hpoint, fun he => hname 'e' (by decide) (he ▸ hc),
          fun hE => hname 'E' (by decide) (hE ▸ hc)⟩
      refine .number (.of_boundary hrun hpower hletters) hread ?_
      rintro ⟨tail, rfl, -⟩
      exact hname 'i' (by decide) rfl
  | imaginary hrun hpower hread =>
      have hunit : ∀ c ∈ ('i' :: rest).head?, isDigit c = false ∧ c ≠ '.' ∧ c ≠ 'e' ∧ c ≠ 'E' := by
        intro c hc
        cases hc
        decide
      exact .imaginary (.of_boundary hrun hpower hunit) hread fun c hc => (hrest c hc).1

/-- Where no name and no number goes on, a run that stands for a lexeme is read as it. -/
theorem Spells.reading {c : Char} {cs rest : List Char} {l : Lexeme} (h : Spells (c :: cs) l)
    (hrest : Boundary rest) : reading c (cs ++ rest) = .ok (l, cs.length + 1) :=
  (h.isLongest hrest).reading

theorem isLongest_of_number {c : Char} {cs : List Char} {l : Lexeme} {n : Nat}
    (hc : isDigit c = true ∨ c = '.') (h : number (fun run => run) (c :: cs) = .ok (l, n)) :
    ∃ run rest, c :: cs = run ++ rest ∧ run.length = n ∧ IsLongest run l rest := by
  unfold number at h
  cases hmantissa : mantissa false (c :: cs) with
  | error e => rw [hmantissa] at h; cases h
  | ok found =>
      obtain ⟨run, tail⟩ := found
      rw [hmantissa] at h
      obtain ⟨htext, hchars, hpoints⟩ := mantissa_spec hmantissa
      have hends := mantissa_ends hmantissa
      obtain ⟨htail, hpower⟩ := exponent_spec tail
      have hnone : (exponent tail).1 = [] → ¬ OpensPower tail :=
        fun hnil hopens => exponent_of_opensPower hopens hnil
      have hpowerEnds : (exponent tail).1 ≠ [] → _ := exponent_ends
      have hrun : IsMantissa run := ⟨mantissa_ne_nil hc hmantissa, hchars, by simpa using hpoints⟩
      dsimp only at h
      generalize (exponent tail).1 = power at *
      generalize (exponent tail).2 = rest at *
      subst htail
      rw [← List.append_assoc] at htext
      have hlongest : IsLongestNumber run power rest :=
        ⟨hrun, hends, hpower, fun hnil => by simpa [hnil] using hnone hnil, hpowerEnds⟩
      cases hread : Double.read? (run ++ power) with
      | none => rw [hread] at h; cases h
      | some x =>
          rw [hread] at h
          dsimp only at h
          split at h
          case isTrue hunit =>
              cases h
              obtain ⟨rest, rfl, hname⟩ := imaginaryUnit_iff.mp hunit
              exact ⟨run ++ power ++ ['i'], rest, by rw [htext, List.append_assoc _ ['i']]; rfl,
                by simp [Nat.add_assoc], .imaginary hlongest hread hname⟩
          case isFalse hunit =>
              cases h
              exact ⟨run ++ power, rest, htext, by simp,
                .number hlongest hread fun hopens => hunit (imaginaryUnit_iff.mpr hopens)⟩

/-- What is read in front of a text is the longest lexeme there. -/
theorem isLongest_of_reading {c : Char} {cs : List Char} {l : Lexeme} {n : Nat}
    (h : reading c cs = .ok (l, n)) :
    ∃ run rest, c :: cs = run ++ rest ∧ run.length = n ∧ IsLongest run l rest := by
  by_cases hnumber : isDigit c = true ∨ c = '.'
  · rw [front_number hnumber] at h
    exact isLongest_of_number hnumber h
  · rw [not_or, Bool.not_eq_true] at hnumber
    unfold reading front at h
    rw [if_neg (by simp [hnumber])] at h
    split at h
    case h_1 sign hsign =>
        cases h
        exact ⟨[c], cs, rfl, rfl, isLongest_of_sign? hsign cs⟩
    case h_2 hnone =>
        split at h
        case isFalse => cases h
        case isTrue hstart =>
            have hpi : c ≠ 'π' := by
              rintro rfl
              cases hnone
            have hname := isNameChar_of_isNameStart hstart
            cases h
            rw [List.takeWhile_cons_of_pos hname]
            refine ⟨c :: cs.takeWhile isNameChar, cs.dropWhile isNameChar, ?_, rfl,
              .name hnumber.1 hpi hstart (fun d hd => List.mem_takeWhile_imp hd) fun d hd => ?_⟩
            · rw [List.cons_append, List.takeWhile_append_dropWhile]
            · have hdrop := List.head?_dropWhile_not isNameChar cs
              rw [Option.mem_def.mp hd] at hdrop
              simpa using hdrop

/-- The longest lexeme begins with the first character. -/
theorem exists_run_of_reading {c : Char} {cs : List Char} {l : Lexeme} {n : Nat}
    (h : reading c cs = .ok (l, n)) :
    ∃ run rest, cs = run ++ rest ∧ n = run.length + 1 ∧ IsLongest (c :: run) l rest := by
  obtain ⟨run, rest, htext, rfl, hrun⟩ := isLongest_of_reading h
  obtain ⟨d, run, rfl⟩ := List.exists_cons_of_ne_nil hrun.spells.ne_nil
  cases htext
  exact ⟨run, rest, rfl, rfl, hrun⟩

/-- What stands in front of a text is a run that stands for a lexeme. -/
theorem spells_of_reading {c : Char} {cs : List Char} {l : Lexeme} {n : Nat}
    (h : reading c cs = .ok (l, n)) :
    ∃ run rest, c :: cs = run ++ rest ∧ run.length = n ∧ Spells run l := by
  obtain ⟨run, rest, htext, hlength, hlongest⟩ := isLongest_of_reading h
  exact ⟨run, rest, htext, hlength, hlongest.spells⟩

/-! ## Lexemes of texts -/

/-- A lexeme as texts have them: numbers without signs, the known operators, and names that are
read as what they are the names of. -/
def IsProper : Lexeme → Prop
  | .number x | .imaginary x => x.isNaN = false ∧ Double.isNegative x = false
  | .operator op => op ∈ ["+", "-", "*", "/", "^"]
  | .var name => Spells name.toList (.var name)
  | .function name => Spells name.toList (.function name)
  | .constant name => Constant.isName name = true
  | .openParen | .closeParen | .comma => True
  | .finish | .unusableNumber .. | .unusableOperator _ => False

theorem IsMantissa.unsigned {run power : List Char} {x : Float} (h : IsMantissa run)
    (hread : Double.read? (run ++ power) = some x) :
    x.isNaN = false ∧ Double.isNegative x = false := by
  obtain ⟨c, rest, rfl, hc⟩ := h.eq_cons
  have hblank : isBlank c = false := by
    rcases hc with hc | rfl
    · exact isBlank_of_isNameChar (isNameChar_of_isDigit hc)
    · decide
  exact Double.read?_unsigned hblank hc hread

theorem isProper_named {name : String} (h : Spells name.toList (named name)) :
    IsProper (named name) := by
  unfold named at *
  split
  case isTrue hfunction => rwa [if_pos hfunction] at h
  case isFalse hfunction =>
      rw [if_neg hfunction] at h
      split
      case isTrue hconstant => exact hconstant
      case isFalse hconstant => rwa [if_neg hconstant] at h

theorem Spells.isProper {cs : List Char} {l : Lexeme} (h : Spells cs l) : IsProper l := by
  cases h with
  | operator h =>
      unfold operatorSign? at h
      split at h
      all_goals cases h
      all_goals simp [IsProper]
  | openParen | closeParen | comma => trivial
  | pi => exact (by decide : Constant.isName Constant.pi.name = true)
  | name hdigit hpi hstart hrest =>
      apply isProper_named
      rw [String.toList_ofList]
      exact .name hdigit hpi hstart hrest
  | number hrun _ hread => exact hrun.unsigned hread
  | imaginary hrun _ hread => exact hrun.unsigned hread

/-! ## Characters of lexemes -/

/-- The characters of lexemes besides those of names. -/
def marks : List Char := ['+', '-', '*', '/', '^', '×', '÷', '(', ')', ',', '.']

theorem IsMantissa.mem {run : List Char} (h : IsMantissa run) {c : Char} (hc : c ∈ run) :
    isNameChar c = true ∨ c ∈ marks := by
  rcases h.chars c hc with hdigit | rfl
  · exact .inl (isNameChar_of_isDigit hdigit)
  · exact .inr (by decide)

theorem IsPower.mem {power : List Char} (h : IsPower power) {c : Char} (hc : c ∈ power) :
    isNameChar c = true ∨ c ∈ marks := by
  cases h with
  | none => cases hc
  | some he hsign _ hdigits =>
      rcases List.mem_cons.mp hc with rfl | hc
      · left
        rcases he with rfl | rfl <;> decide
      · rcases List.mem_append.mp hc with hc | hc
        · right
          rcases hsign with rfl | rfl | rfl
          · cases hc
          · rw [List.mem_singleton.mp hc]
            decide
          · rw [List.mem_singleton.mp hc]
            decide
        · exact .inl (isNameChar_of_isDigit (hdigits c hc))

theorem operatorSign?_mem {c : Char} {sign : String} (h : operatorSign? c = some sign) :
    c ∈ marks := by
  unfold operatorSign? at h
  split at h
  case h_8 => cases h
  all_goals decide

theorem Spells.mem {cs : List Char} {l : Lexeme} (h : Spells cs l) {c : Char} (hc : c ∈ cs) :
    isNameChar c = true ∨ c ∈ marks := by
  cases h with
  | operator hsign =>
      rw [List.mem_singleton.mp hc]
      exact .inr (operatorSign?_mem hsign)
  | openParen | closeParen | comma | pi =>
      rw [List.mem_singleton.mp hc]
      decide
  | name _ _ hstart hrest =>
      rcases List.mem_cons.mp hc with rfl | hc
      · exact .inl (isNameChar_of_isNameStart hstart)
      · exact .inl (hrest c hc)
  | number hrun hpower =>
      rcases List.mem_append.mp hc with hc | hc
      · exact hrun.mem hc
      · exact hpower.mem hc
  | imaginary hrun hpower =>
      rcases List.mem_append.mp hc with hc | hc
      · rcases List.mem_append.mp hc with hc | hc
        · exact hrun.mem hc
        · exact hpower.mem hc
      · rw [List.mem_singleton.mp hc]
        decide

/-- No lexeme has a blank in it. -/
theorem Spells.isBlank_eq_false {cs : List Char} {l : Lexeme} (h : Spells cs l) {c : Char}
    (hc : c ∈ cs) : isBlank c = false := by
  rcases h.mem hc with hname | hmark
  · exact isBlank_of_isNameChar hname
  · have hmarks : marks.all (fun d => !isBlank d) = true := by decide
    simpa using List.all_eq_true.mp hmarks c hmark

/-- A character that plain notation has no use for. -/
def IsMarkup (c : Char) : Prop := c = '\\' ∨ c = '{'

theorem Spells.not_isMarkup {cs : List Char} {l : Lexeme} (h : Spells cs l) {c : Char}
    (hc : c ∈ cs) : ¬ IsMarkup c := by
  rcases h.mem hc with hname | hmark
  · rintro (rfl | rfl)
    all_goals
      revert hname
      decide
  · rintro (rfl | rfl)
    all_goals
      revert hmark
      decide

end Reckoner.Token
