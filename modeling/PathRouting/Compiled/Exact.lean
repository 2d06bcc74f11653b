import PathRouting.Compiled
import PathRouting.Pattern.Exact

/-!
# Compiled patterns find what the search finds

What a compiled pattern says about a url, in terms of the exhaustive search over its parts.
-/

namespace PathRouting.Compiled

theorem extract_eq_search (c : Compiled) (url : List Char) :
    c.extract url = (c.pattern.search Captures.ofRest url).map fun r =>
      (Params.ofBindings r.bindings, r.query.map String.ofList) := by
  rw [extract, c.program_eq, captures_eq_search]

theorem isMatch_eq_search (c : Compiled) (url : String) :
    c.isMatch url = (c.pattern.search Captures.ofRest url.toList).isSome := by
  rw [isMatch, c.program_eq, isMatch_eq_isSome_search]

theorem isMatch_eq_isSome_captures (c : Compiled) (url : String) :
    c.isMatch url = (c.captures url).isSome := by
  rw [isMatch_eq_search, captures, extract_eq_search, Option.isSome_map, Option.isSome_map]

end PathRouting.Compiled
