/-
  Magik.Text.Compose — one spelling for texts that are canonically equal.

  A text is taken apart into letters and marks, the marks behind a letter are put in the
  order of their classes, and what can be put together again is (normalization form C).
  Hangul syllables follow a rule and have no rows. Characters that are replaced where a name
  is folded, such as capitals, have none either: a text has to be folded first.
-/

import Magik.Text.Rows

namespace Magik.Text

/-! ## Tables -/

/-- Marks by the letters of their combining classes: `t` stand above what is marked (230), `u`
    under it (220) and `l` over it (1), `n` are nuktas (7) and `v` viramas (9). -/
def classRuns : List (Nat × String) := [
  (0x300, "t15ou4o2u5o2u4o2uBl5u4t3o2to3tu3t3u2ot3u4tou2to7tDo113t5o109ut4ut3out6u6t2ut2o2to14tuo4At8o3Bt2u2t5ut2u"),
  (0x660, "o76t7o2t4uto2t2out2uo42tut2ut2u3tu2tut3utututut2oA0t7uto9uo18t4ot9ot3ot5o2Bu3o3Bt2u3t4o2At5u5tEout2ut2u"),
  (0x8EA, "t3u3o3t3ut2u2t5o3Cno10vo3tut2o67no10vo30to3Dno10vo6Eno10vo6Eno10vo7Fvo6Eno10vo6Eno10vo6Dv2o10vo7Cvo6Fv"),
  (0xE3B, "o7Fvo5Du2o1Buouo4At2vot2o3Euo70nov2o52uo2CFt3o3B4v2o1Evo9DvoAto15CtuoDBtuo47vo14t8o2uo30t5u6t2uou2t2u2t5"),
  (0x1ACA, "ut12uo2t6ut4o49noFvo26tut7o36v2o3AnoBv2o43no98t3olu5t2u4tol7o4uo6to3t2oC6t2ut7ut2o2uot25o3uotoutuo2D0t2"),
  (0x20D2, "l2t4l3t2o4to3l2tutl2u4toBFEt3o8Dvo60t20o786Fto4tAo20t2o50t2o114vo25vo97vo1Bt12o39u3o25vo5FnoCvoEFtot2uo2"),
  (0xAAB7, "t2o5t2oto34voF6vo5232t7u7t2o3CDuoE2uo95t5o692uoto28tluo4voA5tuo23Dt4o41t5o13Dt2o4Du2ou3o46u2t3utu4o31tut"),
  (0x10F85, "uoC0vo29voEvo39vno45t3o30v2o3Eno4Cvo9no6AvnoB2nvo50n2o10vo18t7o3t5o59v3o71vo3no17to63vnoFBvno7Evo76vno73"),
  (0x1172B, "vo10Dvno102v2o4no9Cvo53vo12vo51vo1A5vo102nov2o51vo1A9v2o41ECvo9C0l5o3Bt7o5167lo14C8l3o11u8o2t5u2o1Et4o94"),
  (0x1D242, "t3oDBBt7ot11o2t7ot2ot5o64toA0t7o177to3Dt4o1FEutoFEtuoF3to2to7t2o5to1DAu7o6Dt6no")]

/-- Marks of other combining classes. -/
def classTable : String := "
315>E8 31A> >D8 321-322>CA 327-328> 345>F0 358>E8 35C>E9 -35E>EA >E9 -361>EA >E9 59A>DE 5AD> >E4 5B0>A >B >C >D >E >F
>10 >11 >12 -5BA>13 >14 >15 >16 5BF>17 5C1>18 >19 5C7>12 618>1E >1F >20 64B>1B >1C >1D >1E >1F >20 >21 >22 670>23
711>24 8F0>1B >1C >1D C55>54 >5B E38-E39>67 E48-E4B>6B EB8-EB9>76 EC8-ECB>7A F39>D8 F71>81 >82 F74>84 F7A-F7D>82 F80>
18A9>E4 1939>DE 1AEB>EA 1DCD> >D6 1DD0>CA 1DF6>E8 -1DF8>E4 1DFA>DA 1DFC>E9 302A>DA >E4 >E8 >DE -302F>E0 3099-309A>8
FB1E>1A 16FF0-16FF1>6 1D165-1D166>D8 1D16D>E2 -1D172>D8 1E4EC-1E4ED>E8
"

def classRows : List Row := rows classTable

/-- The class of a mark; zero for what starts anew. -/
def combiningClass (c : Char) : Nat :=
  if c.toNat < 0x300 then 0
  else
    match letterIn classRuns 'o' c with
    | 't' => 230
    | 'u' => 220
    | 'l' => 1
    | 'n' => 7
    | 'v' => 9
    | _ => (row? classRows c).elim 0 fun r => r.values.headD 0

/-- Marks, and letters without and with the mark in turn. -/
def markedTable : String := "
300=aàeèiìoòuùüǜnǹеѐиѝēḕōṑwẁâầăằêềôồơờưừyỳἀἂἁἃἐἒἑἓἠἢἡἣἰἲἱἳὀὂὁὃὐὒὑὓὠὢὡὣαὰεὲηὴιὶοὸυὺωὼϊῒϋῢ 301=aáeéiíoóuúyýcćlĺnńrŕsśzź
301=üǘgǵåǻæǽøǿϊΐαάεέηήιίϋΰοόυύωώгѓкќçḉēḗïḯkḱmḿõṍōṓpṕũṹwẃâấăắêếôốơớưứἀἄἁἅἐἔἑἕἠἤἡἥἰἴἱἵὀὄὁὅὐὔὑὕὠὤὡὥ
302=aâeêiîoôuûcĉgĝhĥjĵsŝwŵyŷzẑạậẹệọộ 303=aãnñoõiĩuũvṽâẫăẵeẽêễôỗơỡưữyỹ 304=aāeēiīoōuūüǖäǟȧǡæǣǫǭöȫõȭȯȱyȳиӣуӯgḡḷḹṛṝαᾱιῑυῡ
306=aăeĕgğiĭoŏuŭийуўжӂаӑеӗȩḝạặαᾰιῐυῠ 307=cċeėgġzżaȧoȯbḃdḋfḟhḣmṁnṅpṗrṙsṡśṥšṧṣṩtṫwẇxẋyẏ 308=aäeëiïoöuüyÿιϊυϋеёіїаӓәӛжӝзӟ
308=иӥоӧөӫэӭуӱчӵыӹhḧõṏūṻwẅxẍtẗ 309=aảâẩăẳeẻêểiỉoỏôổơởuủưửyỷ 30A=aåuůwẘyẙ 30B=oőuűуӳ 30C=cčdďeělľnňrřsštťzžaǎiǐoǒuǔüǚgǧ
30C=kǩʒǯjǰhȟ 30F=aȁeȅiȉoȍrȑuȕѵѷ 311=aȃeȇiȋoȏrȓuȗ 313=αἀεἐηἠιἰοὀυὐωὠρῤ 314=αἁεἑηἡιἱοὁυὑωὡρῥ 31B=oơuư
323=bḅdḍhḥkḳlḷmṃnṇrṛsṣtṭvṿwẉzẓaạeẹiịoọơợuụưựyỵ 324=uṳ 325=aḁ 326=sștț 327=cçgģkķlļnņrŗsştţeȩdḑhḩ 328=aąeęiįuųoǫ
32D=dḓeḙlḽnṋtṱuṷ 32E=hḫ 330=eḛiḭuṵ 331=bḇdḏkḵlḻnṉrṟtṯzẕhẖ 338=←↚→↛↔↮⇐⇍⇔⇎⇒⇏∃∄∈∉∋∌∣∤∥∦∼≁≃≄≅≇≈≉≡≢≍≭≤≰≥≱≲≴≳≵≶≸≷≹≺⊀≻⊁⊂⊄⊃⊅⊆⊈
338=⊇⊉⊢⊬⊨⊭⊩⊮⊫⊯≼⋠≽⋡⊑⋢⊒⋣⊲⋪⊳⋫⊴⋬⊵⋭ 342=ἀἆἁἇἠἦἡἧἰἶἱἷὐὖὑὗὠὦὡὧαᾶηῆιῖϊῗυῦϋῧωῶ 93C=नऩरऱळऴ BD7=ஒஔ 102E=ဥဦ 1B35=ᬅᬆᬇᬈᬉᬊᬋᬌᬍᬎᬑᬒ
3099=かがきぎくぐけげこごさざしじすずせぜそぞただちぢつづてでとどはばひびふぶへべほぼうゔカガキギクグケゲコゴサザシジ
3099=スズセゼソゾタダチヂツヅテデトドハバヒビフブヘベホボウヴワヷヰヸヱヹヲヺ 309A=はぱひぴふぷへぺほぽハパヒピフプ
309A=ヘペホポ 110BA=𑂙𑂚𑂛𑂜𑂥𑂫
"

/-- Other characters and the two that they are put together from. -/
def pairTable : String := "
622>627,653 >,654 >648, >627,655 >64A,654 6C0>6D5, 6C2>6C1, 6D3>6D2, 9CB>9C7,9BE >,9D7 B48>B47,B56 B4B>,B3E >,B57
BCA>BC6,BBE >BC7, >BC6,BD7 C48>C46,C56 CC0>CBF,CD5 CC7>CC6, >,CD6 CCA>,CC2 >CCA,CD5 D4A>D46,D3E >D47, >D46,D57
DDA>DD9,DCA DDC>,DCF >DDC,DCA >DD9,DDF 1B3B>1B3A,1B35 1B3D>1B3C, 1B40>1B3E, >1B3F, 1B43>1B42, 2260>3D,338 226E>3C,
>3E, 309E>309D,3099 30FE>30FD, 105C9>105D2,307 105E4>105DA, 1112E>11131,11127 >11132, 1134B>11347,1133E >,11357
11383>11382,113C9 11385>11384,113BB 1138E>1138B,113C2 11391>11390,113C9 113C5>113C2,113C2 113C7>,113B8 >,113C9
114BB>114B9,114BA >,114B0 114BE>,114BD 115BA>115B8,115AF >115B9, 11938>11935,11930 16121>1611E,1611E >,16129 >,1611F
>16129, >1611E,16120 >16121,1611F >16122, >16121,16120 16D68>16D67,16D67 >16D63, >16D69,
"

def markedRows (mark : Nat) : List Nat → List Row
  | letter :: marked :: rest => ⟨marked, marked, 1, [letter, mark]⟩ :: markedRows mark rest
  | _ => []

/-- Characters and the two that they are put together from. -/
def pairRows : List Row := ((rows markedTable).flatMap fun r => markedRows r.first r.values) ++ rows pairTable

/-! ## Hangul -/

def leadBase : Nat := 0x1100

def vowelBase : Nat := 0x1161

def tailBase : Nat := 0x11A7

def syllableBase : Nat := 0xAC00

def vowelCount : Nat := 21

def tailCount : Nat := 28

def isLead (n : Nat) : Bool := leadBase ≤ n && n < leadBase + 19

def isVowel (n : Nat) : Bool := vowelBase ≤ n && n < vowelBase + vowelCount

def isTail (n : Nat) : Bool := tailBase < n && n < tailBase + tailCount

def isSyllable (n : Nat) : Bool := syllableBase ≤ n && n < syllableBase + 19 * vowelCount * tailCount

/-- The letters of a syllable. -/
def syllableLetters (n : Nat) : List Char :=
  let index := n - syllableBase
  let tail := index % tailCount
  [leadBase + index / (vowelCount * tailCount), vowelBase + index / tailCount % vowelCount].map Char.ofNat ++
    (if tail = 0 then [] else [Char.ofNat (tailBase + tail)])

/-- The syllable of two letters, or of a syllable and a letter. -/
def syllable? (a b : Nat) : Option Char :=
  if isLead a ∧ isVowel b then
    some (Char.ofNat (syllableBase + ((a - leadBase) * vowelCount + (b - vowelBase)) * tailCount))
  else if isSyllable a ∧ (a - syllableBase) % tailCount = 0 ∧ isTail b then some (Char.ofNat (a + (b - tailBase)))
  else none

/-! ## Taking apart -/

/-- A character taken apart in at most so many steps. -/
def apart : Nat → Char → List Char
  | 0, c => [c]
  | steps + 1, c =>
    if isSyllable c.toNat then syllableLetters c.toNat
    else
      match (row? pairRows c).map Row.values with
      | some [a, b] => apart steps (Char.ofNat a) ++ [Char.ofNat b]
      | _ => [c]

/-- No character takes more steps. -/
def mostSteps : Nat := 4

/-- A mark put behind a text, in front of the marks of higher classes at its end; the text
    is reversed. -/
def putMark (c : Char) : List Char → List Char
  | [] => [c]
  | d :: before => if combiningClass c < combiningClass d then d :: putMark c before else c :: d :: before

/-- A text with the marks behind every letter in the order of their classes. -/
def sortMarks (cs : List Char) : List Char :=
  (cs.foldl (fun done c => if combiningClass c = 0 then c :: done else putMark c done) []).reverse

/-! ## Putting together -/

def together? (a b : Char) : Option Char :=
  match syllable? a.toNat b.toNat with
  | some c => some c
  | none => (pairRows.find? (·.values = [a.toNat, b.toNat])).map fun r => Char.ofNat r.first

/-- A text on its way: what is done, the letter that takes marks, and the marks that it did
    not take; both lists reversed. -/
structure Joined where
  done : List Char
  letter : Option Char
  marks : List Char

def Joined.all (j : Joined) : List Char := j.marks ++ j.letter.toList ++ j.done

/-- Whether marks that were not taken stand between the letter and a character. -/
def Joined.isBlocked (j : Joined) (c : Char) : Bool := j.marks.head?.any fun d => combiningClass c ≤ combiningClass d

/-- A character that is not put together with the letter. -/
def Joined.keep (j : Joined) (c : Char) : Joined :=
  if combiningClass c = 0 then ⟨j.all, some c, []⟩ else { j with marks := c :: j.marks }

def Joined.add (j : Joined) (c : Char) : Joined :=
  match j.letter.bind fun letter => if j.isBlocked c then none else together? letter c with
  | some letter => { j with letter := some letter }
  | none => j.keep c

/-- The one spelling of a text. -/
def compose (cs : List Char) : List Char :=
  if cs.all fun c => c.toNat < 0x300 then cs
  else ((sortMarks (cs.flatMap (apart mostSteps))).foldl Joined.add ⟨[], none, []⟩).all.reverse

end Magik.Text
