/-
  Marginalia/Proofs/Record/Object.lean
  ====================================
  **Fields of an object and fields in order.**  The pairs of an object literal are
  set in a table before they are applied, so that a spelling that is repeated keeps
  its first place and has its last value.  Applied in order they may give another
  record: between two pairs of one spelling there may be one of another spelling for
  the same place, and the last value of a spelling may be one that cannot be read.

  Both records can be followed place by place (`Record.writeFields_only`), and taking
  the fields of one place goes well with setting pairs in a table
  (`Place.among_objectFields`).
-/
import Marginalia.Proofs.Extract.Faults
import Marginalia.Proofs.Record.Place

namespace Marginalia

open Marginalia.Text Marginalia.Literal

theorem Place.among_objectFields (p : Place) (literal : List Char) :
    p.among (objectFields literal) = Table.ofPairs (p.among (objectPairs literal)) :=
  Table.filter_ofPairs (fun key => placeOf? key == some p) _

/-- If the pairs of an object can be applied in order, then so can its fields. -/
theorem exists_ofObject {literal : List Char} {r : Record}
    (h : Record.empty.writeFields (objectPairs literal) = .ok r) :
    ∃ s, Record.ofObject literal = .ok s :=
  Extract.exists_writeFields_of_subset h (fun _ hf => Table.mem_of_mem_ofPairs hf) Record.empty

/-- The last value for a place that can be read among fields. -/
def lastReading (p : Place) (fields : List (List Char × List Char)) : Record :=
  ((p.among fields).filterMap fun f => p.reading? f.2).getLast?.getD .empty

theorem only_eq_lastReading {fields : List (List Char × List Char)} {r : Record} {p : Place}
    (hp : p ≠ .ai) (h : Record.empty.writeFields fields = .ok r) :
    r.only p = lastReading p fields := by
  rw [Record.only_of_writeFields hp h, Record.only_empty, lastReading]

theorem writeFields_among {fields : List (List Char × List Char)} {r : Record}
    (h : Record.empty.writeFields fields = .ok r) (p : Place) :
    Record.empty.writeFields (p.among fields) = .ok (r.only p) := by
  have honly := Record.writeFields_only (p := p) h
  rwa [Record.only_empty] at honly

/-- What the record of an object is, if its pairs can be applied in order, and how far it is the
record that they give then.  At a place for which no spelling is repeated the two agree, and they
are one record if there is no other place.  In any case the record of the object is that of the
fields in which every spelling stands where it is met first, with its last value.  Of these fields,
as of the pairs in order, the last one that can be read decides, except for a hint. -/
theorem ofObject_of_pairs_in_order {literal : List Char} {inOrder : Record}
    (h : Record.empty.writeFields (objectPairs literal) = .ok inOrder) :
    ∃ r, Record.ofObject literal = .ok r ∧
      (∀ p, (Table.keys (p.among (objectPairs literal))).Nodup → r.only p = inOrder.only p) ∧
      ((∀ p : Place, (Table.keys (p.among (objectPairs literal))).Nodup) → r = inOrder) ∧
      (∀ p, Record.empty.writeFields (p.among (objectFields literal)) = .ok (r.only p) ∧
        Record.empty.writeFields (p.among (objectPairs literal)) = .ok (inOrder.only p)) ∧
      (∀ p, p ≠ .ai → r.only p = lastReading p (objectFields literal) ∧
        inOrder.only p = lastReading p (objectPairs literal)) ∧
      Table.keys (objectFields literal) = (Table.keys (objectPairs literal)).eraseDups ∧
      ∀ key, Table.get? key (objectFields literal) =
        ((objectPairs literal).filter fun f => f.1 == key).getLast?.map Prod.snd := by
  obtain ⟨r, hr⟩ := exists_ofObject h
  have hfields : Record.empty.writeFields (objectFields literal) = .ok r := hr
  have hplaces : ∀ p, (Table.keys (p.among (objectPairs literal))).Nodup →
      r.only p = inOrder.only p := by
    intro p hdistinct
    have hat := writeFields_among hfields p
    rw [Place.among_objectFields, Table.ofPairs_of_nodup hdistinct, writeFields_among h p] at hat
    exact (Except.ok.inj hat).symm
  refine ⟨r, hr, hplaces, ?_, ?_, ?_, Table.keys_ofPairs _, Table.get?_ofPairs _⟩
  · intro hdistinct
    exact Record.ext_only fun p => hplaces p (hdistinct p)
  · intro p
    exact ⟨writeFields_among hfields p, writeFields_among h p⟩
  · intro p hp
    exact ⟨only_eq_lastReading hp hfields, only_eq_lastReading hp h⟩

/-- An object in which two spellings of one place take turns, and another place is given a value
that cannot be read after one that can. -/
def takingTurns : List Char :=
  "\x7bdesc: 'a', tags: [x, y], description: 'b', visibility: 'internal', desc: 'c', visibility: 'secret'\x7d".toList

theorem objectPairs_takingTurns : objectPairs takingTurns =
    [("desc".toList, "'a'".toList), ("tags".toList, "[x, y]".toList),
      ("description".toList, "'b'".toList), ("visibility".toList, "'internal'".toList),
      ("desc".toList, "'c'".toList), ("visibility".toList, "'secret'".toList)] := by
  decide +kernel

theorem writeFields_takingTurns : Record.empty.writeFields (objectPairs takingTurns) =
    .ok { desc := some "c", tags := some ["x", "y"], visibility := some .internal } := by
  rw [objectPairs_takingTurns]
  decide +kernel

theorem ofObject_of_pairs_in_order_takingTurns :
    ∃ inOrder r, Record.empty.writeFields (objectPairs takingTurns) = .ok inOrder ∧
      Record.ofObject takingTurns = .ok r ∧ r.only .tags = inOrder.only .tags := by
  have hdistinct : (Table.keys (Place.tags.among (objectPairs takingTurns))).Nodup := by
    rw [objectPairs_takingTurns]
    decide +kernel
  obtain ⟨r, hr, hplaces, _⟩ := ofObject_of_pairs_in_order writeFields_takingTurns
  exact ⟨_, r, writeFields_takingTurns, hr, hplaces .tags hdistinct⟩

/-- The last pair that writes a place need not decide in an object. -/
theorem ofObject_ne_pairs_in_order :
    Record.ofObject takingTurns = .ok { desc := some "b", tags := some ["x", "y"] } ∧
      Record.empty.writeFields (objectPairs takingTurns) =
        .ok { desc := some "c", tags := some ["x", "y"], visibility := some .internal } := by
  refine ⟨?_, writeFields_takingTurns⟩
  rw [Record.ofObject, objectFields, objectPairs_takingTurns]
  decide +kernel

end Marginalia
