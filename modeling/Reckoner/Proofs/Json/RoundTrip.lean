import Reckoner.Proofs.Json.Number
import Reckoner.Proofs.Json.Text
import Reckoner.Proofs.Outcome
import Reckoner.Proofs.Table

/-!
# What is written as JSON is read back

A value that is written as a whole is read back. Where writing stops in front of a value without a
form, an end is missing of every list and object that the value stands in, so that the text is no
JSON at all: `read_write`.
-/

namespace Reckoner

/-! ## Values -/

/-- A value as callers have it: no whole number has more digits than are read, the names of a map
are different, and the empty list is no list of tokens. -/
inductive Datum.IsRegular : Datum → Prop
  | null : IsRegular .null
  | bool (b : Bool) : IsRegular (.bool b)
  | whole {n : Int} (h : Double.digitCount n.natAbs ≤ Double.mostWholeDigits) :
      IsRegular (.number (.whole n))
  | real (x : Float) : IsRegular (.number (.real x))
  | complex (z : Complex) : IsRegular (.number (.complex z))
  | text (s : String) : IsRegular (.text s)
  | tree (e : Expr) : IsRegular (.tree e)
  | list {items : List Datum} (h : ∀ d ∈ items, IsRegular d) : IsRegular (.list items)
  | map {entries : List (String × Datum)} (names : (entries.map Prod.fst).Nodup)
      (h : ∀ e ∈ entries, IsRegular e.2) : IsRegular (.map entries)
  | equation (e : Equation) : IsRegular (.equation e)
  | tokens {ts : List Token} (h : ts ≠ []) : IsRegular (.tokens ts)

/-- A value inside another one, at any depth. -/
inductive Datum.Within (d : Datum) : Datum → Prop
  | self : Within d d
  | item {items : List Datum} {e : Datum} (he : e ∈ items) (h : Within d e) : Within d (.list items)
  | member {entries : List (String × Datum)} {e : String × Datum} (he : e ∈ entries)
      (h : Within d e.2) : Within d (.map entries)

/-- The values that have no form in JSON. -/
inductive Datum.HasNoForm : Datum → Prop
  | complex (z : Complex) : HasNoForm (.number (.complex z))
  | tree (e : Expr) : HasNoForm (.tree e)
  | equation (e : Equation) : HasNoForm (.equation e)
  | tokens {ts : List Token} (h : ts ≠ []) : HasNoForm (.tokens ts)

namespace Json

open Double (IsDigits signedText)

section

-- The equations of the writer and the reader are generated here, before the proofs that all wait
-- for them.
attribute [local simp] write writeItems writeMembers valueAt itemsAt membersAt

end

/-! ## What has been written -/

namespace Written

theorem ofText_andThen (text : List Char) (b : Written) :
    (ofText text).andThen b = ⟨text ++ b.text, b.complete⟩ := rfl

theorem complete_andThen (a b : Written) :
    (a.andThen b).complete = (a.complete && b.complete) := by
  unfold andThen
  cases h : a.complete <;> simp [h]

theorem text_of_complete {a : Written} (h : a.complete = true) (b : Written) :
    (a.andThen b).text = a.text ++ b.text := by rw [andThen, if_pos h]

theorem andThen_assoc (a b c : Written) : (a.andThen b).andThen c = a.andThen (b.andThen c) := by
  obtain ⟨a, completeA⟩ := a
  obtain ⟨b, completeB⟩ := b
  cases completeA <;> cases completeB <;> simp [andThen]

theorem andThen_nil (a : Written) : a.andThen (ofText []) = a := by
  obtain ⟨text, complete⟩ := a
  cases complete <;> simp [andThen, ofText]

/-- Only the text of what follows goes into the text. -/
theorem text_andThen (a b : Written) : (a.andThen b).text = (a.andThen (ofText b.text)).text := by
  unfold andThen
  split <;> rfl

theorem length_text_le (a b : Written) : a.text.length ≤ (a.andThen b).text.length := by
  unfold andThen
  split
  · exact List.length_append ▸ Nat.le_add_right _ _
  · exact Nat.le_refl _

end Written

open Written

/-- A text starts, neither with a blank nor with the end of a list. -/
def Opens (text : List Char) : Prop := ∃ c cs, text = c :: cs ∧ isSpace c = false ∧ c ≠ ']'

theorem opens_cons {c : Char} (hspace : isSpace c = false) (hend : c ≠ ']') (cs : List Char) :
    Opens (c :: cs) := ⟨c, cs, rfl, hspace, hend⟩

theorem Opens.append {text : List Char} (h : Opens text) (rest : List Char) :
    Opens (text ++ rest) := by
  obtain ⟨c, cs, rfl, hspace, hend⟩ := h
  exact opens_cons hspace hend (cs ++ rest)

theorem skipSpace_cons {c : Char} (h : isSpace c = false) (cs : List Char) :
    skipSpace (c :: cs) = c :: cs := List.dropWhile_cons_of_neg (by simp [h])

theorem Opens.skipSpace_eq {text : List Char} (h : Opens text) : skipSpace text = text := by
  obtain ⟨c, cs, rfl, hspace, -⟩ := h
  exact skipSpace_cons hspace cs

theorem skipSpace_newLine (depth : Nat) (cs : List Char) :
    skipSpace (newLine depth ++ cs) = skipSpace cs := by
  refine List.dropWhile_append_of_pos fun c hc => ?_
  rcases List.mem_cons.mp hc with rfl | hc
  · rfl
  · rw [List.eq_of_mem_replicate hc]
    rfl

/-- A text starts as no text, no list and no object does, and not with a blank either. -/
def Bare (text : List Char) : Prop :=
  ∃ c cs, text = c :: cs ∧ isSpace c = false ∧ c ∉ ['"', '[', ']', '\x7b']

theorem bare_cons {c : Char} (hspace : isSpace c = false) (hmark : c ∉ ['"', '[', ']', '\x7b'])
    (cs : List Char) : Bare (c :: cs) := ⟨c, cs, rfl, hspace, hmark⟩

theorem Bare.opens {text : List Char} (h : Bare text) : Opens text := by
  obtain ⟨c, cs, rfl, hspace, hmark⟩ := h
  exact opens_cons hspace (fun hend => hmark (by simp [hend])) cs

theorem Bare.append {text : List Char} (h : Bare text) (rest : List Char) :
    Bare (text ++ rest) := by
  obtain ⟨c, cs, rfl, hspace, hmark⟩ := h
  exact bare_cons hspace hmark (cs ++ rest)

theorem bare_signedText (negative : Bool) {ds : List Char} (hds : IsDigits ds) (hne : ds ≠ []) :
    Bare (signedText negative ds) := by
  obtain ⟨d, ds, rfl⟩ := List.exists_cons_of_ne_nil hne
  cases negative with
  | true => exact bare_cons (by decide) (by decide) _
  | false =>
      have hd := hds d List.mem_cons_self
      have hother {e : Char} (he : e.isDigit = false) : d ≠ e := by
        rintro rfl
        rw [hd] at he
        cases he
      refine bare_cons ?_ ?_ ds
      · simp [isSpace, hother (e := ' ') (by decide), hother (e := '\t') (by decide),
          hother (e := '\n') (by decide), hother (e := '\r') (by decide)]
      · simp [hother (e := '"') (by decide), hother (e := '[') (by decide),
          hother (e := ']') (by decide), hother (e := '\x7b') (by decide)]

theorem bare_doubleText (x : Float) : Bare (doubleText x) := by
  unfold doubleText
  cases hnan : x.isNaN with
  | true => exact bare_cons (by decide) (by decide) _
  | false =>
      cases hinf : x.isInf with
      | true => cases Double.isNegative x <;> exact bare_cons (by decide) (by decide) _
      | false =>
          obtain ⟨ds, fs, es, htext, hnumber, -⟩ :=
            exists_isNumber_text (Double.isFinite_of_isInf_eq_false hnan hinf)
          have happend : signedText (Double.isNegative x) (ds ++ fs ++ es) =
              signedText (Double.isNegative x) ds ++ (fs ++ es) := by
            cases Double.isNegative x <;> simp [signedText]
          simp only [Bool.false_eq_true, if_false]
          rw [htext, happend]
          exact (bare_signedText _ hnumber.digits hnumber.ne).append _

theorem bare_whole (n : Int) : Bare (toString n).toList := by
  rw [toList_toString]
  exact bare_signedText _ (Double.isDigits_toDigits n.natAbs) Nat.toDigits_ne_nil

theorem write_eq_refused_or_opens (depth : Nat) (d : Datum) :
    write depth d = .refused ∨ Opens (write depth d).text := by
  cases d with
  | null => exact .inr (opens_cons (by decide) (by decide) _)
  | bool b => cases b <;> exact .inr (opens_cons (by decide) (by decide) _)
  | number x =>
      cases x with
      | whole n => exact .inr (bare_whole n).opens
      | real x => exact .inr (bare_doubleText x).opens
      | complex z => exact .inl rfl
  | text s => exact .inr (opens_cons (by decide) (by decide) _)
  | tree e => exact .inl rfl
  | list items => cases items <;> exact .inr (opens_cons (by decide) (by decide) _)
  | map entries => cases entries <;> exact .inr (opens_cons (by decide) (by decide) _)
  | equation e => exact .inl rfl
  | tokens ts => cases ts <;> exact .inr (opens_cons (by decide) (by decide) _)

/-- What starts with a value is empty or starts as values do. -/
theorem opens_andThen (depth : Nat) (d : Datum) (b : Written) :
    ((write depth d).andThen b).text = [] ∨ Opens ((write depth d).andThen b).text := by
  rcases write_eq_refused_or_opens depth d with hrefused | hopens
  · exact .inl (by rw [hrefused]; rfl)
  · refine .inr ?_
    unfold andThen
    split
    · exact hopens.append b.text
    · exact hopens

theorem skipSpace_andThen (depth : Nat) (d : Datum) (b : Written) :
    skipSpace ((write depth d).andThen b).text = ((write depth d).andThen b).text := by
  rcases opens_andThen depth d b with hnil | hopens
  · rw [hnil]
    rfl
  · exact hopens.skipSpace_eq

theorem stops_cons {c : Char} (h : isDigit c = false ∧ c ≠ '.' ∧ c ≠ 'e' ∧ c ≠ 'E')
    (cs : List Char) : Stops (c :: cs) := by
  intro e he
  cases he
  exact h

/-! ## Values read back -/

/-- At any depth, whatever stands behind it, a value is read back if it is written as a whole, and
else there is nothing to be read. -/
def ReadsBack (d : Datum) : Prop :=
  ∀ (depth bound : Nat) (rest : List Char), (write depth d).text.length ≤ bound → Stops rest →
    valueAt bound ((write depth d).andThen (.ofText rest)).text =
      if (write depth d).complete then .ok (d, rest) else .error .malformed

/-- What is written of a list behind the start of its first line. -/
def itemsWritten (depth : Nat) (d : Datum) (items : List Datum) : Written :=
  (write (depth + 1) d).andThen (writeItems depth items)

theorem writeItems_cons (depth : Nat) (d : Datum) (items : List Datum) :
    writeItems depth (d :: items) =
      (ofText (',' :: newLine (depth + 1))).andThen (itemsWritten depth d items) := by
  rw [writeItems, itemsWritten]

theorem text_writeItems_cons (depth : Nat) (d : Datum) (items : List Datum) (b : Written) :
    ((writeItems depth (d :: items)).andThen b).text =
      ',' :: (newLine (depth + 1) ++ ((itemsWritten depth d items).andThen b).text) := by
  rw [writeItems_cons, andThen_assoc]
  rfl

theorem stops_writeItems (depth : Nat) (items : List Datum) (rest : List Char) :
    Stops ((writeItems depth items).andThen (.ofText rest)).text := by
  cases items with
  | nil => exact stops_cons (c := '\n') (by decide) _
  | cons d items =>
      rw [text_writeItems_cons]
      exact stops_cons (by decide) _

theorem skipSpace_itemsWritten (depth : Nat) (d : Datum) (items : List Datum) (b : Written) :
    skipSpace (newLine (depth + 1) ++ ((itemsWritten depth d items).andThen b).text) =
      ((itemsWritten depth d items).andThen b).text := by
  rw [skipSpace_newLine, itemsWritten, andThen_assoc, skipSpace_andThen]

/-- A list with items does not end where it starts. -/
theorem head?_itemsWritten (depth : Nat) (d : Datum) (items : List Datum) (b : Written) :
    ((itemsWritten depth d items).andThen b).text.head? ≠ some ']' := by
  rw [itemsWritten, andThen_assoc]
  rcases opens_andThen (depth + 1) d ((writeItems depth items).andThen b) with
    hnil | ⟨c, cs, htext, -, hend⟩
  · rw [hnil]
    exact nofun
  · rw [htext]
    exact fun h => hend (Option.some.inj h)

theorem itemsAt_andThen {d : Datum} (hd : ReadsBack d) {depth bound : Nat}
    (hbound : (write depth d).text.length ≤ bound) {b : Written} (hstops : Stops b.text) :
    itemsAt (bound + 1) ((write depth d).andThen b).text =
      if (write depth d).complete then
        match skipSpace b.text with
        | ']' :: rest => .ok ([d], rest)
        | ',' :: rest => do
          let (items, rest) ← itemsAt bound (skipSpace rest)
          return (d :: items, rest)
        | _ => .error .malformed
      else .error .malformed := by
  rw [text_andThen, itemsAt, hd depth bound b.text hbound hstops]
  cases (write depth d).complete <;> rfl

/-- By induction on the items behind the first one. The bound suffices because it exceeds the length
of what is still to be read. -/
theorem itemsAt_itemsWritten {d : Datum} {items : List Datum} (h : ∀ e ∈ d :: items, ReadsBack e)
    (depth : Nat) {bound : Nat} (hbound : (itemsWritten depth d items).text.length < bound)
    (rest : List Char) :
    itemsAt bound ((itemsWritten depth d items).andThen (.ofText rest)).text =
      if (itemsWritten depth d items).complete then .ok (d :: items, rest)
      else .error .malformed := by
  induction items generalizing d bound with
  | nil =>
      obtain ⟨bound, rfl⟩ : ∃ b, bound = b + 1 := ⟨bound - 1, by omega⟩
      have hlength : (write (depth + 1) d).text.length ≤ bound :=
        (length_text_le _ _).trans (Nat.le_of_lt_succ hbound)
      have hend : skipSpace ((writeItems depth []).andThen (.ofText rest)).text = ']' :: rest := by
        change skipSpace (newLine depth ++ [']'] ++ rest) = _
        rw [List.append_assoc, skipSpace_newLine]
        rfl
      rw [itemsWritten, andThen_assoc, complete_andThen,
        itemsAt_andThen (h d List.mem_cons_self) hlength (stops_writeItems depth [] rest), hend]
      cases (write (depth + 1) d).complete <;> rfl
  | cons e items ih =>
      obtain ⟨bound, rfl⟩ : ∃ b, bound = b + 1 := ⟨bound - 1, by omega⟩
      have hlength : (write (depth + 1) d).text.length ≤ bound :=
        (length_text_le _ _).trans (Nat.le_of_lt_succ hbound)
      rw [itemsWritten, andThen_assoc, complete_andThen,
        itemsAt_andThen (h d List.mem_cons_self) hlength (stops_writeItems depth _ rest),
        text_writeItems_cons]
      cases hcomplete : (write (depth + 1) d).complete with
      | false => rfl
      | true =>
          rw [itemsWritten, text_of_complete hcomplete, writeItems_cons] at hbound
          have hlength : (itemsWritten depth e items).text.length < bound := by
            rw [List.length_append, ofText_andThen, List.length_append, List.length_cons] at hbound
            omega
          have hitems := ih (fun f hf => h f (List.mem_cons_of_mem d hf)) hlength
          rw [writeItems_cons, ofText_andThen, if_pos rfl, skipSpace_cons (by decide)]
          simp only [skipSpace_itemsWritten, hitems]
          cases (itemsWritten depth e items).complete <;> rfl

/-- What is written of an object behind the start of its first line. -/
def membersWritten (depth : Nat) (entry : String × Datum) (entries : List (String × Datum)) :
    Written :=
  (ofText (escape entry.1.toList ++ [':', ' '])).andThen
    ((write (depth + 1) entry.2).andThen (writeMembers depth entries))

theorem writeMembers_cons (depth : Nat) (entry : String × Datum)
    (entries : List (String × Datum)) : writeMembers depth (entry :: entries) =
      (ofText (',' :: newLine (depth + 1))).andThen (membersWritten depth entry entries) := by
  obtain ⟨name, d⟩ := entry
  rw [writeMembers, membersWritten, ofText_andThen, ofText_andThen, ofText_andThen]
  simp

theorem text_writeMembers_cons (depth : Nat) (entry : String × Datum)
    (entries : List (String × Datum)) (b : Written) :
    ((writeMembers depth (entry :: entries)).andThen b).text =
      ',' :: (newLine (depth + 1) ++ ((membersWritten depth entry entries).andThen b).text) := by
  rw [writeMembers_cons, andThen_assoc]
  rfl

theorem stops_writeMembers (depth : Nat) (entries : List (String × Datum)) (rest : List Char) :
    Stops ((writeMembers depth entries).andThen (.ofText rest)).text := by
  cases entries with
  | nil => exact stops_cons (c := '\n') (by decide) _
  | cons entry entries =>
      rw [text_writeMembers_cons]
      exact stops_cons (by decide) _

theorem membersAt_andThen (name : String) {d : Datum} (hd : ReadsBack d) {depth bound : Nat}
    (hbound : (write depth d).text.length ≤ bound) {b : Written} (hstops : Stops b.text) :
    membersAt (bound + 1) (escape name.toList ++ ':' :: ' ' :: ((write depth d).andThen b).text) =
      if (write depth d).complete then
        match skipSpace b.text with
        | '\x7d' :: rest => .ok ([(name, d)], rest)
        | ',' :: rest => do
          let (entries, rest) ← membersAt bound (skipSpace rest)
          return ((name, d) :: entries, rest)
        | _ => .error .malformed
      else .error .malformed := by
  have hname (cs : List Char) : escape name.toList ++ ':' :: ' ' :: cs =
      '"' :: (name.toList.flatMap escapeChar ++ '"' :: (':' :: ' ' :: cs)) := by simp [escape]
  have hskip : skipSpace (' ' :: ((write depth d).andThen b).text) =
      ((write depth d).andThen b).text := skipSpace_andThen depth d b
  have hvalue := hd depth bound b.text hbound hstops
  rw [← text_andThen] at hvalue
  rw [hname, membersAt, scan_escape]
  simp only [orMalformed, bind_ok, skipSpace_cons (c := ':') (by decide), hskip, hvalue,
    String.ofList_toList]
  cases (write depth d).complete <;> rfl

theorem complete_membersWritten (depth : Nat) (entry : String × Datum)
    (entries : List (String × Datum)) : (membersWritten depth entry entries).complete =
      ((write (depth + 1) entry.2).complete && (writeMembers depth entries).complete) := by
  rw [← complete_andThen]
  rfl

theorem length_lt_membersWritten (depth : Nat) (entry : String × Datum)
    (entries : List (String × Datum)) :
    ((write (depth + 1) entry.2).andThen (writeMembers depth entries)).text.length <
      (membersWritten depth entry entries).text.length := by
  rw [membersWritten, ofText_andThen, List.length_append, List.length_append, List.length_cons]
  omega

/-- Behind its name a member is a value, and what is written behind that. -/
theorem text_membersWritten (depth : Nat) (entry : String × Datum)
    (entries : List (String × Datum)) (b : Written) :
    ((membersWritten depth entry entries).andThen b).text = escape entry.1.toList ++
      ':' :: ' ' :: ((write (depth + 1) entry.2).andThen
        ((writeMembers depth entries).andThen b)).text := by
  rw [membersWritten, andThen_assoc, andThen_assoc, ofText_andThen]
  simp

theorem skipSpace_membersWritten (depth : Nat) (entry : String × Datum)
    (entries : List (String × Datum)) (b : Written) :
    skipSpace (newLine (depth + 1) ++ ((membersWritten depth entry entries).andThen b).text) =
      ((membersWritten depth entry entries).andThen b).text := by
  rw [skipSpace_newLine, text_membersWritten]
  exact skipSpace_cons (by decide) _

theorem membersAt_membersWritten {entry : String × Datum} {entries : List (String × Datum)}
    (h : ∀ e ∈ entry :: entries, ReadsBack e.2) (depth : Nat) {bound : Nat}
    (hbound : (membersWritten depth entry entries).text.length < bound) (rest : List Char) :
    membersAt bound ((membersWritten depth entry entries).andThen (.ofText rest)).text =
      if (membersWritten depth entry entries).complete then .ok (entry :: entries, rest)
      else .error .malformed := by
  induction entries generalizing entry bound with
  | nil =>
      obtain ⟨bound, rfl⟩ : ∃ b, bound = b + 1 := ⟨bound - 1, by omega⟩
      have hmember := (length_lt_membersWritten depth entry []).trans hbound
      have hlength : (write (depth + 1) entry.2).text.length ≤ bound :=
        (length_text_le _ _).trans (Nat.le_of_lt_succ hmember)
      have hend : skipSpace ((writeMembers depth []).andThen (.ofText rest)).text =
          '\x7d' :: rest := by
        change skipSpace (newLine depth ++ ['\x7d'] ++ rest) = _
        rw [List.append_assoc, skipSpace_newLine]
        rfl
      rw [text_membersWritten, complete_membersWritten, membersAt_andThen entry.1
        (h entry List.mem_cons_self) hlength (stops_writeMembers depth [] rest), hend]
      cases (write (depth + 1) entry.2).complete <;> rfl
  | cons next entries ih =>
      obtain ⟨bound, rfl⟩ : ∃ b, bound = b + 1 := ⟨bound - 1, by omega⟩
      have hmember := (length_lt_membersWritten depth entry (next :: entries)).trans hbound
      have hlength : (write (depth + 1) entry.2).text.length ≤ bound :=
        (length_text_le _ _).trans (Nat.le_of_lt_succ hmember)
      rw [text_membersWritten, complete_membersWritten, membersAt_andThen entry.1
        (h entry List.mem_cons_self) hlength (stops_writeMembers depth _ rest),
        text_writeMembers_cons]
      cases hcomplete : (write (depth + 1) entry.2).complete with
      | false => rfl
      | true =>
          rw [text_of_complete hcomplete, writeMembers_cons] at hmember
          have hlength : (membersWritten depth next entries).text.length < bound := by
            rw [List.length_append, ofText_andThen, List.length_append, List.length_cons] at hmember
            omega
          have hmembers := ih (fun f hf => h f (List.mem_cons_of_mem entry hf)) hlength
          rw [writeMembers_cons, ofText_andThen, if_pos rfl, skipSpace_cons (by decide)]
          simp only [skipSpace_membersWritten, hmembers]
          cases (membersWritten depth next entries).complete <;> rfl

/-! ## Values by their kinds -/

theorem readsBack_of_refused {d : Datum} (h : ∀ depth, write depth d = .refused) : ReadsBack d := by
  intro depth bound rest hbound hstops
  rw [h]
  cases bound <;> rfl

/-- A value that is written as one text is read back if that text is read as the value, whatever
stands behind it. -/
theorem readsBack_of_text {d : Datum} (text : List Char) (hne : text ≠ [])
    (hwrite : ∀ depth, write depth d = .ofText text)
    (hread : ∀ bound rest, Stops rest → valueAt (bound + 1) (text ++ rest) = .ok (d, rest)) :
    ReadsBack d := by
  intro depth bound rest hbound hstops
  rw [hwrite] at hbound ⊢
  have hpos := List.length_pos_of_ne_nil hne
  change text.length ≤ bound at hbound
  obtain ⟨bound, rfl⟩ : ∃ b, bound = b + 1 := ⟨bound - 1, by omega⟩
  exact hread bound rest hstops

theorem Bare.ne_nil {text : List Char} (h : Bare text) : text ≠ [] := by
  obtain ⟨c, cs, rfl, -⟩ := h
  exact List.cons_ne_nil c cs

theorem Bare.valueAt_eq_atom {text : List Char} (h : Bare text) (bound : Nat) :
    valueAt (bound + 1) text = atom text := by
  obtain ⟨c, cs, rfl, -, hmark⟩ := h
  rw [valueAt] <;> simp_all

theorem readsBack_whole {n : Int} (hn : Double.digitCount n.natAbs ≤ Double.mostWholeDigits) :
    ReadsBack (.number (.whole n)) :=
  readsBack_of_text _ (bare_whole n).ne_nil (fun _ => by rw [write]; rfl) fun bound rest hstops => by
    rw [((bare_whole n).append rest).valueAt_eq_atom, atom_whole hn hstops]

theorem readsBack_real (x : Float) : ReadsBack (.number (.real x)) :=
  readsBack_of_text _ (bare_doubleText x).ne_nil (fun _ => by rw [write]; rfl)
    fun bound rest hstops => by
      rw [((bare_doubleText x).append rest).valueAt_eq_atom, atom_doubleText x hstops]

theorem readsBack_text (s : String) : ReadsBack (.text s) :=
  readsBack_of_text _ (List.cons_ne_nil _ _) (fun _ => by rw [write]; rfl) fun bound rest _ => by
    have htext : '"' :: (s.toList.flatMap escapeChar ++ ['"']) ++ rest =
        '"' :: (s.toList.flatMap escapeChar ++ '"' :: rest) := by simp
    rw [htext, valueAt, scan_escape]
    simp only [orMalformed, bind_ok, String.ofList_toList]
    rfl

theorem valueAt_list {cs : List Char} (h : (skipSpace cs).head? ≠ some ']') (bound : Nat) :
    valueAt (bound + 1) ('[' :: cs) = (itemsAt bound (skipSpace cs)).map
      fun (items, rest) => (.list items, rest) := by
  rw [valueAt]
  split
  case h_1 heq => exact absurd (congrArg List.head? heq) h
  case h_2 => cases itemsAt bound (skipSpace cs) <;> rfl

theorem valueAt_map {cs : List Char} (h : (skipSpace cs).head? ≠ some '\x7d') (bound : Nat) :
    valueAt (bound + 1) ('\x7b' :: cs) = (membersAt bound (skipSpace cs)).map
      fun (entries, rest) => (.map (Table.ofPairs entries), rest) := by
  rw [valueAt]
  split
  case h_1 heq => exact absurd (congrArg List.head? heq) h
  case h_2 => cases membersAt bound (skipSpace cs) <;> rfl

theorem readsBack_list {items : List Datum} (h : ∀ d ∈ items, ReadsBack d) :
    ReadsBack (.list items) := by
  cases items with
  | nil =>
      exact readsBack_of_text ['[', ']'] (List.cons_ne_nil _ _)
        (fun _ => by rw [write]) fun bound rest _ => rfl
  | cons d items =>
      intro depth bound rest hbound hstops
      have hwrite : write depth (.list (d :: items)) =
          (ofText ('[' :: newLine (depth + 1))).andThen (itemsWritten depth d items) := by
        rw [write, itemsWritten]
      rw [hwrite, ofText_andThen, List.length_append, List.length_cons, newLine,
        List.length_cons] at hbound
      obtain ⟨bound, rfl⟩ : ∃ b, bound = b + 1 := ⟨bound - 1, by omega⟩
      have hskip := skipSpace_itemsWritten depth d items (.ofText rest)
      have hhead := head?_itemsWritten depth d items (.ofText rest)
      rw [hwrite, andThen_assoc]
      change valueAt (bound + 1) ('[' :: (newLine (depth + 1) ++ _)) = _
      rw [valueAt_list (by rwa [hskip]), hskip, itemsAt_itemsWritten h depth (by omega),
        ofText_andThen]
      cases (itemsWritten depth d items).complete <;> rfl

theorem readsBack_map {entries : List (String × Datum)} (names : (entries.map Prod.fst).Nodup)
    (h : ∀ e ∈ entries, ReadsBack e.2) : ReadsBack (.map entries) := by
  cases entries with
  | nil =>
      exact readsBack_of_text ['\x7b', '\x7d'] (List.cons_ne_nil _ _)
        (fun _ => by rw [write]) fun bound rest _ => rfl
  | cons entry entries =>
      intro depth bound rest hbound hstops
      have hwrite : write depth (.map (entry :: entries)) =
          (ofText ('\x7b' :: newLine (depth + 1))).andThen
            (membersWritten depth entry entries) := by
        obtain ⟨name, d⟩ := entry
        rw [write, membersWritten, ofText_andThen, ofText_andThen, ofText_andThen]
        simp
      rw [hwrite, ofText_andThen, List.length_append, List.length_cons, newLine,
        List.length_cons] at hbound
      obtain ⟨bound, rfl⟩ : ∃ b, bound = b + 1 := ⟨bound - 1, by omega⟩
      have hskip := skipSpace_membersWritten depth entry entries (.ofText rest)
      have hhead : ((membersWritten depth entry entries).andThen (.ofText rest)).text.head? ≠
          some '\x7d' := by
        rw [text_membersWritten]
        exact fun h => absurd (Option.some.inj h) (by decide)
      rw [hwrite, andThen_assoc]
      change valueAt (bound + 1) ('\x7b' :: (newLine (depth + 1) ++ _)) = _
      rw [valueAt_map (by rwa [hskip]), hskip, membersAt_membersWritten h depth (by omega),
        ofText_andThen]
      cases (membersWritten depth entry entries).complete with
      | false => rfl
      | true =>
          have hpairs := Table.ofPairs_of_nodup names
          change Except.ok (Datum.map (Table.ofPairs (entry :: entries)), rest) = _
          rw [hpairs]
          rfl

theorem readsBack_tokens {ts : List Token} (h : ts ≠ []) : ReadsBack (.tokens ts) := by
  obtain ⟨t, ts, rfl⟩ := List.exists_cons_of_ne_nil h
  intro depth bound rest hbound hstops
  have hwrite : write depth (.tokens (t :: ts)) = ⟨'[' :: newLine (depth + 1), false⟩ := by
    rw [write, ofText_andThen, refused, List.append_nil]
    simp
  have hskip : skipSpace (newLine (depth + 1)) = [] := by
    rw [← List.append_nil (newLine _), skipSpace_newLine]
    rfl
  rw [hwrite]
  change valueAt bound ('[' :: newLine (depth + 1)) = .error .malformed
  cases bound with
  | zero => rfl
  | succ bound =>
      have hitems : itemsAt bound [] = .error .malformed := by
        rcases bound with _ | _ | bound <;> rfl
      rw [valueAt_list (by rw [hskip]; exact nofun), hskip, hitems]
      rfl

/-! ## All values -/

/-- By induction on the value. -/
theorem readsBack {d : Datum} (h : d.IsRegular) : ReadsBack d := by
  induction h with
  | null =>
      exact readsBack_of_text ['n', 'u', 'l', 'l'] (List.cons_ne_nil _ _)
        (fun _ => by rw [write]; rfl) fun bound rest _ => rfl
  | bool b =>
      cases b with
      | true =>
          exact readsBack_of_text ['t', 'r', 'u', 'e'] (List.cons_ne_nil _ _)
            (fun _ => by rw [write]; rfl) fun bound rest _ => rfl
      | false =>
          exact readsBack_of_text ['f', 'a', 'l', 's', 'e'] (List.cons_ne_nil _ _)
            (fun _ => by rw [write]; rfl) fun bound rest _ => rfl
  | whole hn => exact readsBack_whole hn
  | real x => exact readsBack_real x
  | complex z => exact readsBack_of_refused fun _ => by rw [write]; rfl
  | text s => exact readsBack_text s
  | tree e => exact readsBack_of_refused fun _ => by rw [write]
  | list _ ih => exact readsBack_list ih
  | map names _ ih => exact readsBack_map names ih
  | equation e => exact readsBack_of_refused fun _ => by rw [write]
  | tokens hne => exact readsBack_tokens hne

/-- What is written as a whole is read back, and what is not is no JSON. -/
theorem read_write {d : Datum} (h : d.IsRegular) : read (String.ofList (write 0 d).text) =
    if (write 0 d).complete then .ok d else .error .malformed := by
  have hvalue := readsBack h 0 ((write 0 d).text.length + 1) [] (Nat.le_succ _) (by simp [Stops])
  have hskip := skipSpace_andThen 0 d (.ofText [])
  rw [andThen_nil] at hvalue hskip
  rw [read, String.toList_ofList]
  simp only [hskip, hvalue]
  cases (write 0 d).complete <;> rfl

/-! ## Where writing stops -/

theorem complete_writeItems (depth : Nat) (items : List Datum) :
    (writeItems depth items).complete = items.all fun d => (write (depth + 1) d).complete := by
  induction items with
  | nil => rfl
  | cons d items ih =>
      rw [List.all_cons, ← ih, ← complete_andThen, writeItems]
      rfl

theorem complete_writeMembers (depth : Nat) (entries : List (String × Datum)) :
    (writeMembers depth entries).complete =
      entries.all fun e => (write (depth + 1) e.2).complete := by
  induction entries with
  | nil => rfl
  | cons entry entries ih =>
      rw [List.all_cons, ← ih, ← complete_andThen, writeMembers_cons]
      rfl

theorem complete_write_list (depth : Nat) (items : List Datum) :
    (write depth (.list items)).complete =
      items.all fun d => (write (depth + 1) d).complete := by
  cases items with
  | nil => rfl
  | cons d items =>
      rw [List.all_cons, ← complete_writeItems, ← complete_andThen, write]
      rfl

theorem complete_write_map (depth : Nat) (entries : List (String × Datum)) :
    (write depth (.map entries)).complete =
      entries.all fun e => (write (depth + 1) e.2).complete := by
  cases entries with
  | nil => rfl
  | cons entry entries =>
      rw [List.all_cons, ← complete_writeMembers, ← complete_andThen, write]
      rfl

theorem exists_within_list_iff {items : List Datum} :
    (∃ p : Datum, p.Within (.list items) ∧ p.HasNoForm) ↔
      ∃ d ∈ items, ∃ p : Datum, p.Within d ∧ p.HasNoForm := by
  constructor
  · rintro ⟨p, hwithin, hform⟩
    cases hwithin with
    | self => cases hform
    | item hd hp => exact ⟨_, hd, p, hp, hform⟩
  · rintro ⟨d, hd, p, hp, hform⟩
    exact ⟨p, .item hd hp, hform⟩

theorem exists_within_map_iff {entries : List (String × Datum)} :
    (∃ p : Datum, p.Within (.map entries) ∧ p.HasNoForm) ↔
      ∃ e ∈ entries, ∃ p : Datum, p.Within e.2 ∧ p.HasNoForm := by
  constructor
  · rintro ⟨p, hwithin, hform⟩
    cases hwithin with
    | self => cases hform
    | member he hp => exact ⟨_, he, p, hp, hform⟩
  · rintro ⟨e, he, p, hp, hform⟩
    exact ⟨p, .member he hp, hform⟩

/-- A value is written as a whole unless some value inside it, at any depth, has no form. -/
theorem complete_write_eq_false_iff {d : Datum} (h : d.IsRegular) (depth : Nat) :
    (write depth d).complete = false ↔ ∃ p : Datum, p.Within d ∧ p.HasNoForm := by
  induction h generalizing depth with
  | null | bool | whole | real | text =>
      refine iff_of_false (by rw [write]; exact nofun) ?_
      rintro ⟨p, hwithin, hform⟩
      cases hwithin
      cases hform
  | complex z => exact iff_of_true (by rw [write]; rfl) ⟨_, .self, .complex z⟩
  | tree e => exact iff_of_true (by rw [write]; rfl) ⟨_, .self, .tree e⟩
  | list _ ih =>
      rw [complete_write_list, exists_within_list_iff, List.all_eq_false]
      refine exists_congr fun d => and_congr_right fun hd => ?_
      rw [Bool.not_eq_true, ih d hd]
  | map names _ ih =>
      rw [complete_write_map, exists_within_map_iff, List.all_eq_false]
      refine exists_congr fun e => and_congr_right fun he => ?_
      rw [Bool.not_eq_true, ih e he]
  | equation e => exact iff_of_true (by rw [write]; rfl) ⟨_, .self, .equation e⟩
  | tokens hne =>
      obtain ⟨t, ts, rfl⟩ := List.exists_cons_of_ne_nil hne
      exact iff_of_true (by rw [write]; rfl; simp) ⟨_, .self, .tokens hne⟩

end Json

end Reckoner
