/-
Sf37.Server.SchemaOrder — the arguments of a call, in the order of its schema.

The source marks an argument as used when an entry of the schema has taken it; the prompt
writer's model keeps the unused arguments only.

* `appendOfficialArgumentsUsed_eq`: both write the same text.
* `appendOfficialArgumentsUsed_ordered`: what an entry of the schema takes, and what is left.
-/
import Sf37.Run.ByName
import Sf37.Server.ChatPrompt

namespace Sf37.Server

open Sf37.Text Sf37.Run

/-! ## The used flags -/

/-- `json_args`: the arguments, each with its flag `used`. -/
abbrev JsonArgs := List (JsonArg × Bool)

/-- `json_args_find_unused`; `none` is -1. -/
def jsonArgsFindUnused (args : JsonArgs) (key : Bytes) : Option Nat :=
  args.findIdx? fun a => !a.2 && a.1.key = key

/-- The first loop of `append_official_arguments_from_json`, over the properties of the
schema: the text, and the arguments with their flags behind it. -/
def appendNamedArgs : List Bytes → JsonArgs → Bytes × JsonArgs
  | [], args => ([], args)
  | prop :: props, args =>
      match jsonArgsFindUnused args prop with
      | none => appendNamedArgs props args
      | some idx =>
          let rest := appendNamedArgs props (args.modify idx fun a => (a.1, true))
          ((args[idx]?.map fun a => appendOfficialArg a.1).getD [] ++ rest.1, rest.2)

/-- The second loop of `append_official_arguments_from_json`. -/
def appendUnusedArgs (args : JsonArgs) : Bytes :=
  args.flatMap fun a => if a.2 then [] else appendOfficialArg a.1

/-- `append_official_arguments_from_json`, with the flags of the source. -/
def appendOfficialArgumentsUsed (json : Bytes) (order : Option ToolSchemaOrder) :
    Option Bytes :=
  (jsonArgsParse json).map fun parsed =>
    let args : JsonArgs := parsed.map fun a => (a, false)
    let named := match order with
      | none => ([], args)
      | some order => appendNamedArgs order.prop args
    named.1 ++ appendUnusedArgs named.2

/-! ## The unused arguments -/

/-- The arguments that are not used yet. -/
def JsonArgs.unused (args : JsonArgs) : List JsonArg := (args.filter (!·.2)).map (·.1)

@[simp] theorem JsonArgs.unused_nil : JsonArgs.unused [] = [] := rfl

@[simp] theorem JsonArgs.unused_cons_used (a : JsonArg) (args : JsonArgs) :
    JsonArgs.unused ((a, true) :: args) = args.unused := by
  simp [JsonArgs.unused]

@[simp] theorem JsonArgs.unused_cons_unused (a : JsonArg) (args : JsonArgs) :
    JsonArgs.unused ((a, false) :: args) = a :: args.unused := by
  simp [JsonArgs.unused]

theorem JsonArgs.unused_parsed (parsed : List JsonArg) :
    JsonArgs.unused (parsed.map fun a => (a, false)) = parsed := by
  induction parsed with
  | nil => rfl
  | cons a parsed ih => rw [List.map_cons, unused_cons_unused, ih]

theorem appendUnusedArgs_eq (args : JsonArgs) :
    appendUnusedArgs args = args.unused.flatMap appendOfficialArg := by
  induction args with
  | nil => rfl
  | cons a args ih =>
    obtain ⟨a, used⟩ := a
    rw [appendUnusedArgs] at ih
    cases used <;> simp [appendUnusedArgs, ih]

/-- What the search finds is the first unused argument of the name, and marking it takes it
from the unused ones. -/
theorem jsonArgsFindUnused_spec (args : JsonArgs) (prop : Bytes) :
    match jsonArgsFindUnused args prop with
    | none => args.unused.find? (·.key = prop) = none
    | some idx => ∃ a, args[idx]? = some (a, false) ∧ args.unused.find? (·.key = prop) = some a ∧
        JsonArgs.unused (args.modify idx fun a => (a.1, true)) =
          args.unused.eraseP (·.key = prop) := by
  induction args with
  | nil => rfl
  | cons b args ih =>
    obtain ⟨b, used⟩ := b
    rw [jsonArgsFindUnused] at ih ⊢
    rw [List.findIdx?_cons]
    by_cases hfirst : used = false ∧ b.key = prop
    · obtain ⟨rfl, hkey⟩ := hfirst
      simp [hkey]
    · have hno : (!used && decide (b.key = prop)) = false := by
        cases used <;> simp_all
      rw [hno]
      simp only [Bool.false_eq_true, if_false]
      cases hfind : args.findIdx? (fun a => !a.2 && decide (a.1.key = prop)) with
      | none =>
        rw [hfind] at ih
        cases used <;> simp_all
      | some idx =>
        rw [hfind] at ih
        obtain ⟨a, hget, hmem, hrest⟩ := ih
        refine ⟨a, by simpa using hget, ?_⟩
        cases used <;> simp_all

/-- The loop over the flags is the loop over the unused arguments. -/
theorem appendNamedArgs_eq (props : List Bytes) (args : JsonArgs) :
    (appendNamedArgs props args).1 ++ appendUnusedArgs (appendNamedArgs props args).2 =
      appendArgsInOrder props args.unused := by
  induction props generalizing args with
  | nil => rw [appendNamedArgs, List.nil_append, appendUnusedArgs_eq, appendArgsInOrder]
  | cons prop props ih =>
    have hspec := jsonArgsFindUnused_spec args prop
    rw [appendNamedArgs, appendArgsInOrder]
    cases hfind : jsonArgsFindUnused args prop with
    | none =>
      rw [hfind] at hspec
      rw [hspec]
      exact ih args
    | some idx =>
      rw [hfind] at hspec
      obtain ⟨a, hget, hfirst, hrest⟩ := hspec
      rw [hfirst, ← hrest]
      simp [hget, ih]

/-- The flags of the source and the list of the unused arguments write the same text. -/
theorem appendOfficialArgumentsUsed_eq (json : Bytes) (order : Option ToolSchemaOrder) :
    appendOfficialArgumentsUsed json order = appendOfficialArgumentsFromJson json order := by
  rw [appendOfficialArgumentsUsed, appendOfficialArgumentsFromJson]
  refine congrArg (Option.map · (jsonArgsParse json)) (funext fun parsed => ?_)
  cases order with
  | none =>
    simp [appendUnusedArgs_eq, JsonArgs.unused_parsed, appendArgsInOrder]
  | some order =>
    have := appendNamedArgs_eq order.prop (parsed.map fun a => (a, false))
    rw [JsonArgs.unused_parsed] at this
    simpa using this

/-! ## The order of the schema -/

/-- An entry of the schema takes the first unused argument of its name. -/
theorem appendArgsInOrder_eq (props : List Bytes) (args : List JsonArg) :
    appendArgsInOrder props args =
      (named JsonArg.key props args ++ unnamed JsonArg.key props args).flatMap
        appendOfficialArg := by
  induction props generalizing args with
  | nil => rw [appendArgsInOrder, named_nil, unnamed_order_nil, List.nil_append]
  | cons prop props ih =>
    rw [appendArgsInOrder, named_cons, unnamed_cons]
    cases hfind : args.find? (·.key = prop) with
    | none =>
      have hno : ∀ a ∈ args, ¬ decide (a.key = prop) = true := List.find?_eq_none.mp hfind
      rw [List.eraseP_of_forall_not hno]
      simpa using ih args
    | some arg =>
      simp [ih]

/-- The properties that the writer goes through. -/
def schemaProps (order : Option ToolSchemaOrder) : List Bytes := (order.map (·.prop)).getD []

/-- Each argument is written once: what the entries of the schema take, in its order, and
then the rest, in its own order. Where no name comes more often than in the schema, the rest
has none of its names. -/
theorem appendOfficialArgumentsUsed_ordered {json : Bytes} {args : List JsonArg}
    (h : jsonArgsParse json = some args) (order : Option ToolSchemaOrder) :
    appendOfficialArgumentsUsed json order =
        some ((named JsonArg.key (schemaProps order) args ++
          unnamed JsonArg.key (schemaProps order) args).flatMap appendOfficialArg) ∧
      (named JsonArg.key (schemaProps order) args ++
        unnamed JsonArg.key (schemaProps order) args).Perm args ∧
      (unnamed JsonArg.key (schemaProps order) args).Sublist args ∧
      ((∀ p ∈ schemaProps order,
          args.countP (·.key = p) ≤ (schemaProps order).countP (· = p)) →
        unnamed JsonArg.key (schemaProps order) args =
          args.filter (·.key ∉ schemaProps order)) := by
  refine ⟨?_, named_perm _ _ _, unnamed_sublist _ _ _, fun hcount =>
    (unnamed_eq_filter _ hcount).trans (List.filter_congr fun a _ => decide_eq_decide.mpr .rfl)⟩
  rw [appendOfficialArgumentsUsed_eq, appendOfficialArgumentsFromJson, h, Option.map_some,
    ← schemaProps, appendArgsInOrder_eq]

/-- Two arguments `a` and one `c`, which the schema does not name. -/
def repeatedArgs : Bytes := bytes "\x7b\"a\":1,\"c\":9,\"a\":2\x7d"

theorem jsonArgsParse_repeatedArgs : jsonArgsParse repeatedArgs =
    some [⟨bytes "a", bytes "1", false⟩, ⟨bytes "c", bytes "9", false⟩,
      ⟨bytes "a", bytes "2", false⟩] := by
  decide +kernel

/-- A schema that names `a` twice takes both. -/
theorem appendOfficialArgumentsUsed_ordered_twice :
    appendOfficialArgumentsUsed repeatedArgs (some ⟨bytes "f", [bytes "b", bytes "a", bytes "a"]⟩) =
      some ([⟨bytes "a", bytes "1", false⟩, ⟨bytes "a", bytes "2", false⟩,
        ⟨bytes "c", bytes "9", false⟩].flatMap appendOfficialArg) :=
  (appendOfficialArgumentsUsed_ordered jsonArgsParse_repeatedArgs
    (some ⟨bytes "f", [bytes "b", bytes "a", bytes "a"]⟩)).1

/-- A schema that names `a` once leaves the second `a` behind `c`. -/
theorem appendOfficialArgumentsUsed_namedLast :
    jsonArgsParse repeatedArgs = some [⟨bytes "a", bytes "1", false⟩,
      ⟨bytes "c", bytes "9", false⟩, ⟨bytes "a", bytes "2", false⟩] ∧
    ¬ ∃ first rest : List JsonArg,
      (first ++ rest).Perm [⟨bytes "a", bytes "1", false⟩, ⟨bytes "c", bytes "9", false⟩,
        ⟨bytes "a", bytes "2", false⟩] ∧
      (∀ a ∈ first, a.key ∈ [bytes "a"]) ∧ (∀ a ∈ rest, a.key ∉ [bytes "a"]) ∧
      appendOfficialArgumentsUsed repeatedArgs (some ⟨bytes "f", [bytes "a"]⟩) =
        some ((first ++ rest).flatMap appendOfficialArg) := by
  refine ⟨jsonArgsParse_repeatedArgs, ?_⟩
  rintro ⟨first, rest, hperm, hfirst, hrest, htext⟩
  have hrest : rest = [⟨bytes "c", bytes "9", false⟩] := by
    have hkept := hperm.filter (·.key ∉ [bytes "a"])
    have hnone : first.filter (·.key ∉ [bytes "a"]) = [] := by
      rw [List.filter_eq_nil_iff]
      intro a ha
      simpa using hfirst a ha
    have hall : rest.filter (·.key ∉ [bytes "a"]) = rest := by
      rw [List.filter_eq_self]
      intro a ha
      simpa using hrest a ha
    rw [List.filter_append, hnone, hall, List.nil_append] at hkept
    exact List.perm_singleton.mp hkept
  have hwritten : appendOfficialArgumentsUsed repeatedArgs (some ⟨bytes "f", [bytes "a"]⟩) =
      some ([⟨bytes "a", bytes "1", false⟩, ⟨bytes "c", bytes "9", false⟩].flatMap
        appendOfficialArg ++ appendOfficialArg ⟨bytes "a", bytes "2", false⟩) := by
    decide +kernel
  rw [hwritten, hrest, List.flatMap_append] at htext
  have hlast := List.append_inj_right' (Option.some.inj htext) (by decide)
  exact absurd hlast (by decide)

end Sf37.Server
