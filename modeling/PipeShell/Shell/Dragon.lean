/-!
The picture that the dragon command shows.
-/
namespace PipeShell

def dragonLines : List String := [
  "",
  "                 __====-_  _-====___",
  "           _--^^^#####//      \\\\#####^^^--_",
  "        _-^##########// (    ) \\\\##########^-_",
  "       -############//  |\\^^/|  \\\\############-",
  "     _/############//   (@::@)   \\\\############\\_",
  "    /#############((     \\\\//     ))#############\\",
  "   -###############\\\\    (oo)    //###############-",
  "  -#################\\\\  / VV \\  //#################-",
  " -###################\\\\/      \\//###################-",
  "_#/|##########/\\######(   /\\   )######/\\##########|\\#_",
  "|/ |#/\\#/\\#/\\/  \\#/\\##\\  |  |  /##/\\#/  \\/\\#/\\#/\\#| \\|",
  "`  |/  V  V  `   V  \\#\\| |  | |/#/  V   '  V  V  \\|  '",
  "   `   `  `      `   / | |  | | \\   '      '  '   '",
  "                    (  | |  | |  )",
  "                   __\\ | |  | | /__",
  "                  (vvv(VVV)(VVV)vvv)"
]

def dragonText : String := String.join (dragonLines.map (· ++ "\n"))

end PipeShell
