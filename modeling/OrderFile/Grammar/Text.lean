/-!
The grammar of order files as it is published, in extended Backus-Naur form. `CSID` and `QUANTITY`
are integer tokens, and so is `INTEGER(1..10)`, with a value in that range.
-/

set_option autoImplicit false

namespace OrderFile.Grammar

/-- The revision of the grammar. -/
def version : Nat := 1

def textLines : List String :=
  ["orders      = \x7border | EOL\x7d EOF .",
    "order       = assemble | bombard | buy | disassemble | invade | move | name",
    "            | news | pay | probe | raid | ration | retool | sell | setup",
    "            | support | survey | transfer .",
    "assemble    = \"assemble\"    CSID [DEPOSIT_ID | FACTORY_GROUP_ID | MINE_GROUP_ID] QUANTITY material EOL .",
    "disassemble = \"disassemble\" CSID [FACTORY_GROUP_ID | MINE_GROUP_ID] QUANTITY material EOL .",
    "retool      = \"retool\"      CSID FACTORY_GROUP_ID material EOL .",
    "bombard     = \"bombard\"     CSID CSID PERCENTAGE EOL .",
    "invade      = \"invade\"      CSID CSID PERCENTAGE EOL .",
    "raid        = \"raid\"        CSID CSID PERCENTAGE cargo EOL .",
    "support     = \"support\"     CSID CSID [CSID] PERCENTAGE EOL .",
    "transfer    = \"transfer\"    CSID QUANTITY cargo CSID EOL .",
    "buy         = \"buy\"         CSID (RESEARCH | PRODUCT QUANTITY) number EOL .",
    "sell        = \"sell\"        CSID (RESEARCH | PRODUCT QUANTITY) number EOL .",
    "move        = \"move\"        CSID coordinate EOL .",
    "name        = \"name\"        CSID QUOTED_TEXT EOL .",
    "news        = \"news\"        coordinate QUOTED_TEXT [QUOTED_TEXT] EOL .",
    "pay         = \"pay\"         [CSID] POPULATION number EOL .",
    "ration      = \"ration\"      [CSID] PERCENTAGE EOL .",
    "probe       = \"probe\"       CSID [INTEGER | coordinate] EOL .",
    "survey      = \"survey\"      CSID EOL .",
    "setup       = \"setup\"       CSID coordinate (\"ship\" | \"colony\") \"transfer\" EOL",
    "              \x7bxfer_detail\x7d \"end\" EOL .",
    "cargo       = POPULATION | PRODUCT | RESEARCH | RESOURCE .",
    "material    = PRODUCT | RESEARCH .",
    "number      = FLOAT | INTEGER .",
    "coordinate  = '(' INTEGER ',' INTEGER ',' INTEGER [',' INTEGER(1..10)] ')' .",
    "xfer_detail = QUANTITY cargo EOL .",
    "unknown     = \x7bany token except EOL/EOF\x7d EOL ."]

/-- The published text. -/
def text : String :=
  String.join (textLines.map (· ++ "\n"))

end OrderFile.Grammar
