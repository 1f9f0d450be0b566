import Mathlib
import Cassetta.Core.Percent
import Cassetta.Server.Calls

/-!
# What HTTP lets through

Not every text can be the parameter of a route or stand in the head of an answer. A path
converter is the regular expression `.*`, so that a newline ends it, and `$` lets a last one
through; what stands in a head is text in Latin-1 without control characters.
-/

namespace Cassetta

/-! ## Parameters -/

/-- A text without its last newline. -/
def withoutFinalNewline (rest : String) : List Char :=
  if rest.toList.getLast? = some '\n' then rest.toList.dropLast else rest.toList

/-- `{path:path}` at the end of a route, of the rest of a decoded URL path: a newline at the end is
not part of it, and one before the end is not matched. -/
def pathParam (rest : String) : Option String :=
  if '\n' ∈ withoutFinalNewline rest then none
  else some (String.ofList (withoutFinalNewline rest))

/-- `{path:path}` with more of the route after it. -/
def innerParam (rest : String) : Option String :=
  if '\n' ∈ rest.toList then none else some rest

/-- The parameter of the route `<route>{path:path}` for the path of a URL, which the server decodes
once. -/
@[irreducible] def routeParam (route rawPath : String) : Option String :=
  if startsWith (Percent.unquote rawPath) route then
    pathParam (removePrefix (Percent.unquote rawPath) route)
  else none

/-- A handler behind a route: what the route does not match is answered by the router. -/
def routed {C : Type} {A : C → Type} {α : Type} (param : Option String)
    (handler : String → ExceptT Exc (Prog C A) α) : ExceptT Exc (Prog C A) α :=
  match param with
  | some path => handler path
  | none => throw (.http 404 "Not Found")

/-- A path that the router takes is handled. -/
@[simp] theorem routed_some {C : Type} {A : C → Type} {α : Type} (path : String)
    (handler : String → ExceptT Exc (Prog C A) α) : routed (some path) handler = handler path := rfl

@[simp] private theorem routed_none {C : Type} {A : C → Type} {α : Type}
    (handler : String → ExceptT Exc (Prog C A) α) :
    routed none handler = throw (.http 404 "Not Found") := rfl

/-- A text is what is left without its last newline, or that and the newline. -/
theorem withoutFinalNewline_cases (rest : String) :
    rest = String.ofList (withoutFinalNewline rest) ∨
      rest = String.ofList (withoutFinalNewline rest) ++ "\n" := by
  unfold withoutFinalNewline
  split
  · rename_i hlast
    right
    rw [← String.toList_inj, String.toList_append, String.toList_ofList]
    exact (List.dropLast_append_getLast? '\n' hlast).symm
  · left
    rw [String.ofList_toList]

/-- A text of one line is a parameter as it is. -/
theorem pathParam_of_line {rest : String} (h : '\n' ∉ rest.toList) :
    pathParam rest = some rest := by
  have hlast : rest.toList.getLast? ≠ some '\n' := fun hlast => h (List.mem_of_getLast? hlast)
  rw [pathParam, withoutFinalNewline, if_neg hlast, if_neg h, String.ofList_toList]

/-- A parameter is one line, and the rest of the URL path is that line or has a newline after it. -/
theorem pathParam_eq_some {rest path : String} (h : pathParam rest = some path) :
    '\n' ∉ path.toList ∧ (rest = path ∨ rest = path ++ "\n") := by
  unfold pathParam at h
  split at h
  · cases h
  · rename_i hline
    obtain rfl := Option.some.inj h
    exact ⟨by rwa [String.toList_ofList], withoutFinalNewline_cases rest⟩

/-- A parameter with more after it is what the URL path has there, in one line. -/
theorem innerParam_eq_some {rest path : String} :
    innerParam rest = some path ↔ '\n' ∉ rest.toList ∧ rest = path := by
  unfold innerParam
  split
  · rename_i hline
    simp [hline]
  · rename_i hline
    simp [hline]

/-- A route and a further decoding leave a path as it is if it is one line without an escape. -/
theorem unquote_pathParam_iff (bundlePath : String) :
    (∃ param, pathParam bundlePath = some param ∧ Percent.unquote param = bundlePath) ↔
      Percent.hasEscape bundlePath.toList = false ∧ '\n' ∉ bundlePath.toList := by
  constructor
  · rintro ⟨param, hparam, hself⟩
    obtain ⟨hline, rfl | hlast⟩ := pathParam_eq_some hparam
    · exact ⟨(Percent.unquote_eq_self_iff _).mp hself, hline⟩
    · have hlen := Percent.length_unquote_le param
      rw [hself, hlast, String.toList_append, List.length_append] at hlen
      simp at hlen
  · rintro ⟨hescape, hline⟩
    exact ⟨bundlePath, pathParam_of_line hline, (Percent.unquote_eq_self_iff _).mpr hescape⟩

/-- A URL path that codes the route and a rest has the parameter of the rest. -/
theorem routeParam_of_codes {route rawPath rest : String}
    (h : Percent.Codes rawPath (route ++ rest)) : routeParam route rawPath = pathParam rest := by
  have hstarts : startsWith (route ++ rest) route = true := by
    rw [startsWith, String.toList_append]
    exact List.isPrefixOf_iff_prefix.mpr (List.prefix_append _ _)
  rw [routeParam, h.unquote_eq, if_pos hstarts, removePrefix_append]

/-- What is quoted after the route is decoded to the rest of the URL path. -/
theorem routeParam_append_quote {route : String}
    (hroute : ∀ c ∈ route.toList, c.toNat < 128 ∧ c ≠ '%') (rest : String) :
    routeParam route (route ++ Percent.quote rest) = pathParam rest :=
  routeParam_of_codes ((Percent.codes_plain hroute).append (Percent.codes_quote rest))

/-! ## Heads -/

/-- A character of a head: one of Latin-1 that is no control character, or a tab. -/
def headChar (c : Char) : Bool := c = '\t' || (32 ≤ c.toNat && c.toNat < 256 && c.toNat ≠ 127)

/-- A text that can stand in a head. -/
def headValue (s : String) : Bool := s.toList.all headChar

/-- The values go out in the head of an answer: they are encoded when the response is made, and the
server refuses control characters when it sends them. -/
def sendHead (values : List String) : Handler Unit :=
  if values.all headValue then pure () else throw (.value "Invalid HTTP header value.")

/-- What can stand in a head is one line. -/
theorem not_newline_of_headValue {s : String} (h : headValue s = true) : '\n' ∉ s.toList := by
  intro hmem
  exact absurd (List.all_eq_true.mp h _ hmem) (by decide)

/-- A space or a tab. -/
def isBlank (c : Char) : Bool := c = ' ' || c = '\t'

/-- A text that the head of a request brings as it is: blanks at its ends are no part of it. -/
def fieldValue (s : String) : Bool :=
  headValue s && !s.toList.head?.any isBlank && !s.toList.getLast?.any isBlank

end Cassetta
