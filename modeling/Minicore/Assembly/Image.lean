/-
  The IMAGE — a memory initialisation file.

  Six header lines give the depth, the width and the radices; then comes one line per record; `END;`
  closes the file.  Every line ends in a line feed.
-/
import Minicore.Assembly.Encoding

namespace Minicore

namespace Image

/-- What comes before the records. -/
def header : List Text :=
  ["DEPTH = ".toList ++ Numeral.decimal imageDepth ++ [';'],
   "WIDTH = ".toList ++ Numeral.decimal imageWidth ++ [';'],
   "ADDRESS_RADIX = HEX;".toList,
   "DATA_RADIX = HEX;".toList,
   "CONTENT".toList,
   "BEGIN".toList]

/-- What comes after the records. -/
def footer : List Text := ["END;".toList]

/-- The lines of the image of these records. -/
def lines (records : List Record) : List Text := header ++ records.map Record.text ++ footer

/-- The image of these records. -/
def text (records : List Record) : Text := (lines records).flatMap fun l => l ++ ['\n']

end Image

/-- The image of an assembled program. -/
def Assembly.image (a : Assembly) : Text := Image.text a.records

example : Image.text [] =
    "DEPTH = 256;\nWIDTH = 24;\nADDRESS_RADIX = HEX;\nDATA_RADIX = HEX;\nCONTENT\nBEGIN\nEND;\n".toList := by
  decide

end Minicore
