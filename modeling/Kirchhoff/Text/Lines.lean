/-!
# Lines of reports

Reports are made of lines: titles, and items beside or below them.
-/

namespace Kirchhoff.Text

/-- Lines, each with an end. -/
def unlines (lines : List String) : String := String.join (lines.map (· ++ "\n"))

/-- A line with a title and items. -/
def listing (title : String) (items : List String) : String :=
  "    " ++ title ++ ":" ++ String.join (items.map (" " ++ ·))

/-- A title and items, one a line. -/
def chapter (title : String) (items : List String) : List String :=
  ("    " ++ title) :: items.map ("        " ++ ·)

end Kirchhoff.Text
