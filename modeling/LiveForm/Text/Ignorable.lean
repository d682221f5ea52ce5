import LiveForm.Text.CodePoints

/-!
# Characters that can be left out of print

The characters with the Unicode property Default_Ignorable_Code_Point, version 17.0: a printer that does
not know them shows nothing in their place. The fillers of Hangul syllables are the only letters here.
-/

set_option autoImplicit false

namespace LiveForm.Text

/-- The code points with the property Default_Ignorable_Code_Point. -/
def ignorableRanges : CodePoints :=
  [(173, 173), (847, 847), (1564, 1564), (4447, 4448), (6068, 6069), (6155, 6159), (8203, 8207),
   (8234, 8238), (8288, 8303), (12644, 12644), (65024, 65039), (65279, 65279), (65440, 65440),
   (65520, 65528), (113824, 113827), (119155, 119162), (917504, 921599)]

/-- Whether `c` can be left out of print. -/
def isIgnorable (c : Char) : Bool :=
  ignorableRanges.contains c

end LiveForm.Text
