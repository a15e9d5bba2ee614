/-!
# The plain prelude

A small format in the manner of plain TeX, read before a session's own input unless the
session asks for none: category and character definitions, spacing parameters, skip
macros, French spacing switches, the active tilde, loops and `\bye`. It stays in vertical
mode and closes every group it opens, so a session starts at level zero.
-/

namespace Galley

/-- The lines of the plain prelude. -/
def plainLines : List String :=
  [
    "% A small plain-like format, loaded before user input unless disabled.",
    "% It must not leave vertical mode or open a group.",
    "",
    "\\chardef\\active=13",
    "\\chardef\\%=`\\% \\chardef\\&=`\\& \\chardef\\#=`\\# \\chardef\\$=`\\$",
    "",
    "\\let\\bgroup=\x7b \\let\\egroup=\x7d",
    "\\let\\endgraf=\\par",
    "\\def\\empty\x7b\x7d",
    "\\def\\space\x7b \x7d",
    "\\def\\lq\x7b`\x7d \\def\\rq\x7b'\x7d",
    "\\def\\lbrack\x7b[\x7d \\def\\rbrack\x7b]\x7d",
    "",
    "% Spacing",
    "\\baselineskip=12pt \\lineskip=1pt \\lineskiplimit=0pt",
    "\\parindent=20pt \\parskip=0pt plus 1pt",
    "\\hfuzz=0.1pt \\vfuzz=0.1pt",
    "",
    "\\def\\quad\x7b\\hskip1em\\relax\x7d",
    "\\def\\qquad\x7b\\hskip2em\\relax\x7d",
    "\\def\\enskip\x7b\\hskip.5em\\relax\x7d",
    "\\def\\thinspace\x7b\\kern.16667em \x7d",
    "\\def\\negthinspace\x7b\\kern-.16667em \x7d",
    "\\def\\enspace\x7b\\kern.5em \x7d",
    "",
    "\\skipdef\\smallskipamount=250 \\smallskipamount=3pt plus 1pt minus 1pt",
    "\\skipdef\\medskipamount=251 \\medskipamount=6pt plus 2pt minus 2pt",
    "\\skipdef\\bigskipamount=252 \\bigskipamount=12pt plus 4pt minus 4pt",
    "\\def\\smallskip\x7b\\vskip\\smallskipamount\x7d",
    "\\def\\medskip\x7b\\vskip\\medskipamount\x7d",
    "\\def\\bigskip\x7b\\vskip\\bigskipamount\x7d",
    "",
    "\\def\\centerline#1\x7b\\hbox to\\hsize\x7b\\hss#1\\hss\x7d\x7d",
    "\\dimendef\\hsize=250 \\hsize=6.5in",
    "",
    "\\def\\frenchspacing\x7b\\sfcode`\\.=1000 \\sfcode`\\?=1000 \\sfcode`\\!=1000",
    "  \\sfcode`\\:=1000 \\sfcode`\\;=1000 \\sfcode`\\,=1000 \x7d",
    "\\def\\nonfrenchspacing\x7b\\sfcode`\\.=3000 \\sfcode`\\?=3000 \\sfcode`\\!=3000",
    "  \\sfcode`\\:=2000 \\sfcode`\\;=1500 \\sfcode`\\,=1250 \x7d",
    "\\nonfrenchspacing",
    "",
    "\\catcode`\\~=13",
    "\\def~\x7b\\space\x7d",
    "",
    "% Loops",
    "\\def\\loop#1\\repeat\x7b\\def\\body\x7b#1\x7d\\iterate\x7d",
    "\\def\\iterate\x7b\\body \\let\\next\\iterate \\else\\let\\next\\relax\\fi \\next\x7d",
    "\\let\\repeat=\\fi",
    "",
    "\\def\\bye\x7b\\par\\end\x7d"
  ]

/-- The source text of the plain prelude: its lines, each ended by a newline. -/
def plainPrelude : String :=
  String.join (plainLines.map (· ++ "\n"))

end Galley
