import Reckoner.Proofs.Json.RoundTrip
import Reckoner.Settings.Store

/-!
# What was saved is what is loaded

Saving replaces the file, so that whatever has been done with it before does not matter: what has
been saved goes before the defaults, `load_save`. A save that fails for a value without a form has
replaced the file too, by a text that is no JSON, and so all that is left are the defaults,
`save_of_refuses`.
-/

namespace Reckoner

/-- A value that has a form in JSON: at no depth there is one that has none. No whole number has
more digits than are read, and the names of a map are different. -/
inductive Datum.IsJson : Datum → Prop
  | null : IsJson .null
  | bool (b : Bool) : IsJson (.bool b)
  | whole {n : Int} (h : Double.digitCount n.natAbs ≤ Double.mostWholeDigits) :
      IsJson (.number (.whole n))
  | real (x : Float) : IsJson (.number (.real x))
  | text (s : String) : IsJson (.text s)
  | list {items : List Datum} (h : ∀ d ∈ items, IsJson d) : IsJson (.list items)
  | map {entries : List (String × Datum)} (names : (entries.map Prod.fst).Nodup)
      (h : ∀ e ∈ entries, IsJson e.2) : IsJson (.map entries)

theorem Datum.IsJson.isRegular {d : Datum} (h : d.IsJson) : d.IsRegular := by
  induction h with
  | null => exact .null
  | bool b => exact .bool b
  | whole hn => exact .whole hn
  | real x => exact .real x
  | text s => exact .text s
  | list _ ih => exact .list ih
  | map names _ ih => exact .map names ih

theorem Datum.IsJson.not_hasNoForm {d : Datum} (h : d.IsJson) :
    ¬∃ p : Datum, p.Within d ∧ p.HasNoForm := by
  induction h with
  | null | bool | whole | real | text =>
      rintro ⟨p, hwithin, hform⟩
      cases hwithin
      cases hform
  | list _ ih =>
      rw [Json.exists_within_list_iff]
      rintro ⟨d, hd, hform⟩
      exact ih d hd hform
  | map _ _ ih =>
      rw [Json.exists_within_map_iff]
      rintro ⟨e, he, hform⟩
      exact ih e he hform

namespace Settings.Store

/-! ## Requests -/

/-- What is done with the place where settings are kept. -/
inductive Request where
  | write (text : String)
  | remove
  | withdraw
  | load (name : String)
  | save (entries : Table Datum)

/-- The place after a request. -/
def step (s : Store) : Request → Store
  | .write text => s.write text
  | .remove => s.remove
  | .withdraw => s.withdraw
  | .load _ => s
  | .save entries => (s.save entries).2

/-- The place after requests, one after the other. -/
def run (s : Store) (requests : List Request) : Store := requests.foldl step s

theorem reachable_step_iff {s : Store} {r : Request} :
    (s.step r).reachable = true ↔ s.reachable = true ∧ r ≠ .withdraw := by
  obtain ⟨content, reachable⟩ := s
  cases r with
  | withdraw => exact iff_of_false nofun fun h => h.2 rfl
  | write | remove | load | save => cases reachable <;> simp [step, write, remove, save]

/-- A place is reachable unless it has been withdrawn. -/
theorem reachable_run_iff {s : Store} {requests : List Request} :
    (s.run requests).reachable = true ↔ s.reachable = true ∧ .withdraw ∉ requests := by
  induction requests generalizing s with
  | nil => simp [run]
  | cons r requests ih =>
      have hstep : (s.step r).reachable = true ↔ s.reachable = true ∧ .withdraw ≠ r :=
        reachable_step_iff.trans (and_congr_right' ne_comm)
      rw [List.mem_cons, not_or, ← and_assoc]
      exact ih.trans (and_congr_left' hstep)

/-! ## Saving -/

theorem save_of_unreachable {s : Store} (h : s.reachable = false) (entries : Table Datum) :
    s.save entries = ([], s) := by
  rw [save, h, if_neg Bool.false_ne_true]

theorem fst_save {s : Store} (h : s.reachable = true) (entries : Table Datum) :
    (s.save entries).1 = if (Json.write 0 (.map entries)).complete then entries else [] := by
  rw [save, h, if_pos rfl]

theorem content_save {s : Store} (h : s.reachable = true) (entries : Table Datum) :
    (s.save entries).2.content = some (String.ofList (Json.write 0 (.map entries)).text) := by
  rw [save, if_pos h]
  change (s.write _).content = _
  rw [write, if_pos h]

/-- The file gives what saving has answered, nothing on failure. -/
theorem stored_save {s : Store} (h : s.reachable = true) {entries : Table Datum}
    (hentries : (Datum.map entries).IsRegular) :
    (s.save entries).2.stored = .ok (s.save entries).1 := by
  have hreachable : (s.save entries).2.reachable = true :=
    reachable_step_iff.mpr ⟨h, (nofun : Request.save entries ≠ .withdraw)⟩
  rw [stored, read, hreachable, if_pos rfl, content_save h, Option.map_some,
    Json.read_write hentries, fst_save h]
  cases (Json.write 0 (.map entries)).complete <;> rfl

theorem load_eq_of_stored {s : Store} {entries : Table Datum} (h : s.stored = .ok entries) :
    s.load = .ok (override entries) := by
  rw [load, h]
  rfl

/-- After any requests, what is saved as a whole is loaded, before the defaults. -/
theorem load_save (s : Store) (requests : List Request)
    (hreachable : (s.run requests).reachable = true) {entries : Table Datum}
    (hentries : (Datum.map entries).IsJson) :
    ((s.run requests).save entries).1 = entries ∧
      ((s.run requests).save entries).2.load = .ok (override entries) ∧
      ∀ name, ((s.run requests).save entries).2.load.value name =
        .ok (((entries.find? name).or (defaults.find? name)).getD (.number (.whole 0))) := by
  have hcomplete : (Json.write 0 (.map entries)).complete = true := by
    rw [← Bool.not_eq_false, Json.complete_write_eq_false_iff hentries.isRegular]
    exact hentries.not_hasNoForm
  have hsaved : ((s.run requests).save entries).1 = entries := by
    rw [fst_save hreachable, if_pos hcomplete]
  have hload := load_eq_of_stored (stored_save hreachable hentries.isRegular)
  rw [hsaved] at hload
  refine ⟨hsaved, hload, fun name => ?_⟩
  cases hentries with
  | map names _ => rw [hload, value, bind_ok, override, Table.find?_insertAll names]; rfl

/-- What has been saved counts whatever has been done with the file before. -/
theorem load_save_nested : (((Store.empty.run
      [.write "\x7bnot json", .save [("x", .number (.complex ⟨1, 2⟩))], .load "debug", .remove]).save
      [("tolerance", .list [.text "é\n\"", .null, .map [("k", .number (.whole (-3)))]]),
        ("x", .number (.real (-0.0)))]).2.load.value "tolerance") =
      .ok (.list [.text "é\n\"", .null, .map [("k", .number (.whole (-3)))]]) := by
  have hthree : Double.digitCount (-3 : Int).natAbs ≤ Double.mostWholeDigits := by decide
  have hmap : (Datum.map [("k", .number (.whole (-3)))]).IsJson :=
    .map (by decide) (by simpa using .whole hthree)
  have hlist : (Datum.list [.text "é\n\"", .null, .map [("k", .number (.whole (-3)))]]).IsJson :=
    .list (by simpa using ⟨.text _, .null, hmap⟩)
  exact (load_save Store.empty _ (by rfl)
    (.map (by decide) (by simpa using ⟨hlist, .real (-0.0)⟩))).2.2 "tolerance"

/-! ## Saving that fails -/

/-- Settings are not saved: no file can be there, or some value among them, at any depth, has no
form. -/
def Refuses (s : Store) (entries : Table Datum) : Prop :=
  s.reachable = false ∨ ∃ p : Datum, p.Within (.map entries) ∧ p.HasNoForm

/-- A save that fails answers nothing. Where no file can be there, nothing has happened. Else the
file has been replaced by a text that is no JSON and all that is in force are the defaults, so that
the settings are what they were only if they were the defaults. -/
theorem save_of_refuses {s : Store} {entries : Table Datum}
    (hentries : (Datum.map entries).IsRegular) (hrefuses : s.Refuses entries) :
    (s.save entries).1 = [] ∧
      (s.reachable = false → (s.save entries).2 = s) ∧
      (s.reachable = true →
        (∃ text, (s.save entries).2.content = some text ∧ Json.read text = .error .malformed) ∧
          (s.save entries).2.load = .ok defaults) ∧
      ((s.save entries).2.load = s.load ↔ s.reachable = false ∨ s.load = .ok defaults) := by
  cases hreachable : s.reachable with
  | false =>
      rw [save_of_unreachable hreachable]
      simp
  | true =>
      have hform := hrefuses.resolve_left (by simp [hreachable])
      have hincomplete := (Json.complete_write_eq_false_iff hentries 0).mpr hform
      have hsaved : (s.save entries).1 = [] := by rw [fst_save hreachable, hincomplete]; rfl
      have hload : (s.save entries).2.load = .ok defaults := by
        rw [load_eq_of_stored (stored_save hreachable hentries), hsaved]
        rfl
      have hread := Json.read_write hentries
      rw [hincomplete] at hread
      refine ⟨hsaved, nofun, fun _ => ⟨⟨_, content_save hreachable entries, hread⟩, hload⟩, ?_⟩
      rw [hload]
      simp [eq_comm]

/-- The settings are lost with the file: three decimal places are ten again. -/
theorem save_of_refuses_complex :
    (Store.empty.save [("decimal_places", .number (.whole 3))]).2.load.value "decimal_places" =
        .ok (.number (.whole 3)) ∧
      ((Store.empty.save [("decimal_places", .number (.whole 3))]).2.save
          [("x", .number (.complex ⟨1, 2⟩))]).2.load.value "decimal_places" =
        .ok (.number (.whole 10)) := by
  have hsaved : (Datum.map [("decimal_places", .number (.whole 3))]).IsRegular :=
    .map (by decide) (by simpa using .whole (by decide))
  have hregular : (Datum.map [("x", .number (.complex ⟨1, 2⟩))]).IsRegular :=
    .map (by decide) (by simpa using .complex _)
  have hrefuses : (Store.empty.save [("decimal_places", .number (.whole 3))]).2.Refuses
      [("x", .number (.complex ⟨1, 2⟩))] :=
    .inr ⟨_, .member List.mem_cons_self .self, .complex ⟨1, 2⟩⟩
  constructor
  · rw [load_eq_of_stored (stored_save rfl hsaved)]
    rfl
  · rw [((save_of_refuses hregular hrefuses).2.2.1 rfl).2]
    rfl

end Settings.Store

end Reckoner
