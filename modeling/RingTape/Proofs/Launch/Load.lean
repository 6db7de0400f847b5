import RingTape.Launch.Load
import RingTape.Proofs.Machine.Step
import RingTape.Proofs.Program.RoundTrip
import RingTape.Proofs.Table.Lookup

/-!
# Loaded machines

A machine that is loaded from a file, be it a program or a table, is at its start, and its rules
have directions, so that no step of it fails.
-/

namespace RingTape

theorem Program.directed_of_parse
    {size : Datum} {lines : List (List Char)} {r : Ruleset} (h : Program.parse size lines = .ok r) :
    r.Directed :=
  (Program.printable_of_parse h).1.directed

theorem Table.directed_of_parse
    {loader : Yaml.Loader} {size : Datum} {text : List Char} {r : Ruleset}
    (h : Table.parse loader size text = .ok r) :
    r.Directed := by
  obtain ⟨n, document, -, hdocument⟩ := exists_ofDatum_of_parse h
  exact (imported_of_ofDatum hdocument).directed

theorem Table.exists_parse_of_ofFile
    {loader : Yaml.Loader} {size : Datum} {bytes : List UInt8} {r : Ruleset}
    (h : Table.ofFile loader size bytes = .ok r) :
    ∃ text, Table.parse loader size text = .ok r := by
  obtain ⟨text, -, hparse⟩ := bind_eq_ok_iff.mp h
  exact ⟨text, mapError_eq_ok_iff.mp hparse⟩

theorem Program.exists_parseText_of_ofFile
    {size : Datum} {bytes : List UInt8} {r : Ruleset} (h : Program.ofFile size bytes = .ok r) :
    ∃ text, Program.parseText size text = .ok r := by
  obtain ⟨text, -, hparse⟩ := bind_eq_ok_iff.mp h
  exact ⟨text, mapError_eq_ok_iff.mp hparse⟩

theorem Table.directed_of_ofFile
    {loader : Yaml.Loader} {size : Datum} {bytes : List UInt8} {r : Ruleset}
    (h : Table.ofFile loader size bytes = .ok r) :
    r.Directed := by
  obtain ⟨text, hparse⟩ := exists_parse_of_ofFile h
  exact directed_of_parse hparse

theorem Program.directed_of_ofFile
    {size : Datum} {bytes : List UInt8} {r : Ruleset} (h : Program.ofFile size bytes = .ok r) :
    r.Directed := by
  obtain ⟨text, hparse⟩ := exists_parseText_of_ofFile h
  exact directed_of_parse hparse

theorem Machine.reachable_of_ofRuleset
    {r : Ruleset} {m : Machine} (h : Machine.ofRuleset r = .ok m) (hr : r.Directed) :
    m.Reachable ∧ m.ruleset.Directed := by
  refine ⟨.create h, ?_⟩
  obtain ⟨n, -, rfl⟩ := Machine.create_eq_ok h
  exact hr

theorem Machine.reachable_of_load
    {loader : Yaml.Loader} {files : FileTree} {path : String} {size : Int} {m : Machine}
    (h : Machine.load loader files path size = .ok m) :
    m.Reachable ∧ m.ruleset.Directed := by
  obtain ⟨bytes, -, hfile⟩ := bind_eq_ok_iff.mp h
  unfold Machine.ofFile at hfile
  split at hfile
  · obtain ⟨r, hr, hcreate⟩ := bind_eq_ok_iff.mp hfile
    exact reachable_of_ofRuleset (mapError_eq_ok_iff.mp hcreate) (Table.directed_of_ofFile hr)
  · obtain ⟨r, hr, hcreate⟩ := bind_eq_ok_iff.mp hfile
    exact reachable_of_ofRuleset (mapError_eq_ok_iff.mp hcreate) (Program.directed_of_ofFile hr)

end RingTape
