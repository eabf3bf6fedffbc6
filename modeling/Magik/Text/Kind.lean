/-
  Magik.Text.Kind — kinds of characters, and texts as diagnostics quote them.

  A table has the kinds of the characters from U+0080 on. Letters stand for them:
  - `l` letters, `n` numbers, `N` numbers that are letters (Nl), and `o` what is none of these;
  - `m` marks that take no room (Mn, Me), `s` marks that take room (Mc), `g` those of the latter that
    extend the character before them (property Grapheme_Extend), and `M`, `S`, `G` the same if they
    are letters (property Alphabetic);
  - `z` blanks and joiners, `k` other characters that are not seen (Cc, Cf, Zl, Zp), `x` and `X`
    signs and numbers that stand in no name of a host;
  - `i` characters that may be passed over (property Default_Ignorable_Code_Point), `v` such marks
    and `I` such letters;
  - `u` characters that mean nothing or are private (Cn, Co).
-/

import Magik.Text.Rows

namespace Magik.Text

def kindTable : List (Nat × String) := [
  (0x80, "k20zo9lo2io4n2olo3nlon3ol17ol1Fol1CAo4lCoEl5o7lolo11m45Mm9vm13MDl5ol2u2l4olu4o2lol3ulul14ul53ol8Bom7lA6ul26"),
  (0x557, "u2lo6l29o2u2o3um1FMEoMoM2oM2oMu8l1Bu4l4o2uBk6oAMBoko3l2BMDmM7nAo4l2Ml63olM7kom2M4l2M2om3Ml2nAl3o2loEuklM"),
  (0x712, "l1EM10mBu2l59MBluEnAl21m9l2o4lu2mo2l16M2m2lM9lM3lM4mu2oFul19m3u2oulBu5l18ol7k2u5Mm8l2AmAMCm2kM7m6M13Sl36MS"),
  (0x93C, "mlS3M8S4mS2lm4M3lAM2o2nAol10MS2ul8u2l2u2l16ul7ulu3l4u2mlGS2M4u2S2u2S2mlu8Gu4l2ul3M2u2nAl2o2n6o2lomu2M2Sul6"),
  (0xA0B, "u4l2u2l16ul7ul2ul2ul2u2muS3M2u4M2u2M2mu3Mu7l4ulu7nAM2l3MouAM2Sul9ul3ul16ul7ul2ul5u2mlS3M5uM2SuS2mu2luFl2M2"),
  (0xAE4, "u2nAo2u7lM3m3uMS2ul8u2l2u2l16ul7ul2ul5u2mlGMSM4u2S2u2S2mu7mMGu4l2ul3M2u2nAoln6uAMlul6u3l3ul4u3l2ulul2u3l2"),
  (0xBA5, "u3l3u3lCu4GSMS2u3S3uS3mu2lu6GuEnDo8u5MS3Ml8ul3ul17ul10u2mlM3S4uM3uM3mu7M2ul3ul2u2l2M2u2nAu7on7olMS2ol8ul3u"),
  (0xC92, "l17ulAul5u2mlSMGSGS2uMG2uG2Mmu7G2u5l3ul2M2u2nAul2SuCM2S2l9ul3ul29m2lGS2M4uS3uS3mlou4l3Gn7l3M2u2n13ol6uMS2u"),
  (0xD85, "l12u3l18ul9ulu2l7u3mu4GS2M3uMuS7Gu6nAu2S2ouCl30Ml2M7u4ol7m6MmonAo2u25l2ulul5ul18ululAMl2M6mM2lu2l5ulum5Mmu"),
  (0xED0, "nAu2l4u20lo17m2o6n14omomomo4s2l8ul24u4MESM4mom2l5MBuM24uo8mo6uoDu25l2BS2M4SM5mSm2S2M2lnAo6l6S2M2l4M3lS3l2"),
  (0x1067, "S7l3M4lDMS2M2S6MlSnAS3Mo2l26ulu5lu2l2Bol63I2lE8ul4u2l7ulul4u2l29ul4u2l21ul4u2l7ulul4u2lFul39ul4u2l43u2m3"),
  (0x1360, "o9n14u3l10oAu6l56u2l6u2ol26Co2l11kl1Ao2u3l4Bo3N3l8u7l12M2mgu9l13M2go2u9l12M2uClDul3uM2uCl34v2SM7S8MS2mBo3"),
  (0x17D7, "lo4lmu2nAu6nAu6oBv3ivnAu6l59u7l5M2l22Mlu5l46uAl1FuM3S4M2S3u4S2MS6m3u4ou3o2nAl1Eu2l5uBl2Cu4l1Au6nBu3o22l17"),
  (0x1A17, "M2S2Mu2o2l35SMSM7umSMS2M8S6M2m8u2mnAu6nAu6o7lo6u2mFM2mBM3mFu2mCu14M4Sl2FmGM5GMGS4MGgl8uo2nAo11m9oCM2Sl1ES"),
  (0x1BA2, "M4S2M2gmM2l2nAl2CmSM2S3MSM3g2u8o4l24S8M8S2Mmu3o5nAu3l3nAl24o2lBu5l2Bu2l3o8u8m3omDsm7l4ml6ml2sm2lu5lC0m13"),
  (0x1DD3, "M22mBl116u2l6u2l26u2l6u2l8ulululul1Fu2l35ul7olo3l3ul7o3l4u2l6uo3lDo3u2l3ul7o2uzBiz2k2o14x3ok7zo2Fzi5uk4i6"),
  (0x2070, "nlu2n6o5lnAo5ulDu3o22uEm21uFo2lo4lo2lAolo3l5o6lololol4olBo2l4o5l5o4lon10N23l2N4no2u4o29Au16oBu15n28X14o1A"),
  (0x24B6, "l34n16o276n1Eo3E0u2o8AlE5o6l4m3l2u5o4no2l26ulu5lu2l38u7louEml17u9l7ul7ul7ul7ul7ul7ul7ul7uM20o2Flo2Eu22o1A"),
  (0x2E9A, "uo59uCoD6u1Ax10zo4l2No19N9m4g2ol5o2N3l2o3ul56u2m2o2l3ol5Aol4u5l2Bul33Il2Auo2n4oAl20o26u9xl10o1FunAo1En8o"),
  (0x3251, "nFo20nAo27nFo102xo4xo10xo27l19C0o40l568Du3o37u9l2Eo2l10Do3l10nAl2u14l2Fm4oM8m2ol1FM2l46NAm2o6u8o17l9o2l67"),
  (0xA789, "o2l52u14l11Ml3ml4Ml17S2M2So4mu3n6o4u6l34o4u8S2l32S10mMu8o2nAu6m12l6o3lol2MnAl1CM5m3o2l17MBSguBol1Du3M3S"),
  (0xA984, "l2FmS2M4S2M2S2goDulnAu4o2l5MlAnAl5ul29M6S2M2S2M2u9l3Ml8MSu2nAu2o4l17o3lSMSl32MlM3l2M2l5Mmlmlu18l3o2lBSM2"),
  (0xAAEE, "S2o2l3SmuAl6u2l6u2l6u9l7ul7ul2BolEo2u4l73S2MS2MS2osmu2nAu6l2BA4uCl17u4l31u2104l16Eu2l6Au26l7uCl5u5lMlAolD"),
  (0xFB37, "ul5ulul2ul2ul6Co21l16Bo12l40o2l36o8u20lCo4v10o2xo6xu6m10xo21xuo13uo4u4l5ul87u2iuoFnAo7l1Ao6l1AoBl3AIl1Eu3"),
  (0xFFC2, "l6u2l6u2l6u2l3u3o7uo7uAk3x2u2lCul1Aul13ul2ulFu2lEu22l7Bu5o3u4n2Du3o9N35n4o11n2o3uoDu3ou2Fo2Dmu82l1Du3l31"),
  (0x102D1, "uFmn1Bu4l20n4u9l14Nl8Nu5l26M5u5l1Euol24u4l8oN5u2Al9Eu2nAu6l24u4l24u4l28u8l34uBolBulFul7ul2ulBulFul7ul2u3"),
  (0x105C0, "l34uCl137u9l16uAl8u18l6ul2Aul9u45l6u2lul2Cul2u3lu2l17uon8l17o2n7l1Fu8n9u30l13ul2u5n5l16n6u3ol1Au5ol1Au26"),
  (0x10980, "l38u4n2l2n10u2n2ElM3uM2u5M4l4ul3ul1Du2m3u4mn9u7o9u7l1Dn2ol1Dn3u20l8ol1Cm2u4n5o7u9l36u3o7l16u2n8l13u5n8"),
  (0x10B80, "l12u7o4uCn7u50l49u37l33uDl33u7n6l24M4u8nAu6nAl1Cu3Mm4ol17u8o2uD0n1Ful2AuM2ou2l2u10l6u8o9u21M3m3l1DnAlu8"),
  (0x10F30, "l16mBn4o5u16l12m4o4u26l15n7u14l17u9SMSl35MEmo7u4n1Eml2M2lu9mM2Sl2DS3M4S2m2o2ko4MuAku2l19u7nAu6M3l24M5SM6"),
  (0x11133, "m2unAo4lS2lu8l23mo2lu9M2Sl30S3M9Sgl4o4m4oSMnAlolo3un14uBl12ul19S3M3S2MgmMo6Ml2Mu3El7ulul4ulFulAou6l2FMS3"),
  (0x112E3, "M6m2u5nAu6M2S2ul8u2l2u2l16ul7ul2ul5um2lGSMS4u2S2u2S2gu2lu6Gu5l5S2u2m7u3m5uBlAulu2lul26ulGS2M6uGu2GuG3Su"),
  (0x113CC, "S2mgmlmlo2uo2u8m2u1Dl35S3M8S2mM2Sml4o5nAo2uoml3u1El30GS2M6SMS2GSM2Sm2l2olu8nAuA6l2FGS2M4u2S4M2Sm2o17l4M2"),
  (0x115DE, "u22l30S3M8S2MSmMo3luBnAu6oDu13l2BMSMS2M6gmlou6nAu6n14u1Cl1Bu2MSMS2M4SM4mu4nCo4l7uB9l2CS3M9Sm2ou64l40n13"),
  (0x118F3, "uCl8u2lu2l8ul2ul18GS5uS2u2M2gmlSlSmo3u9nAu46l8u2l27S3M4u2M2S4mlolSu1BlMAl28m2M4SlM4o8mu8lM6S2M3l2EMDSm2"),
  (0x11A9A, "o3lo5uDl49u7oAu56MSM3SMSu58l21ouEnAu6l9ul25SM7uM6Smlo5uAn1Du3o2l1Eu2M16uSM7SM2SM2u49l7ul2ul26M6u3MuM2uM3"),
  (0x11D42, "mMm2lMu8nAu6l6ul2ul20S5uM2uS2MSmlu7nAu6l2Cu4nAuF6l13M2S2o2u7M2lSlDul22S2M5u3S2MgmoDnAmu55luFn15o1DuDo"),
  (0x12000, "l39Au66N6Fuo5uBlC4uA4Cl61o2uDl430k10ml6mFuAlF9Bu5l247u1AB9l1EMCS3M2mnAu6C6l239u7l1FunAu4o2l4FunAu6l1Eu2"),
  (0x16AF0, "m5ouAl30m7o9l4o2uAnAun7ul15u5l13u1B0l2Do3nAuC6l40n17o4u5l19u2l19u2Cl4Bu4MlS37u7M4lDu40l2olmuBG2l2N3u9"),
  (0x17000, "l1CD6u29l20u61l73u21FDl4ul7ul2ul123uFlu1Dl3u2luEl4u8l18Cu904l6Bu5lDu3l9u7lAu2omMoi4uF5CoF0nAo3u3o1B4u6"),
  (0x1CEBA, "o17uFo11uFm2Eu2m17u9o74u3CoF6uAo27u2o3Cg2m3o3g6i8m8o2m7o1Em4o3Du15o42m3ou7An14uCn14uCo57u9n19u87l55ul47u"),
  (0x1D49E, "l2u2lu2l2u2l4ulCulul7ul41ul4u2l8ul7ul1Cul4ul5ulu3l7ul154u2l19ol19ol1Fol19ol1Fol19ol1Fol19ol1Fol19ol8u2"),
  (0x1D7CE, "n32o200m37o4m32o8moEmo7uFm5umFu450l1Fu6l6uD5M7uM11u2M7uM2uM5u5l3Eu21Mu70l2Du3m7l7u2nAu4lou140l1Emu11l2C"),
  (0x1E2EC, "m4nAu5ou1D0l1Cm4nAuD6l1Em2lnAu4ouC0l1Ful3Ml2Ml7M2l5Mu8l2uE0l7ul4ul2ulFulC5u2n9m7u29l44m3Mm3lu4nAu4o2u311"),
  (0x1EC71, "n3Bon3on4u4Cn2DonFuC2l4ul1Bul2ulu2lulAul4ululu6lu4lululul3ul2ulu2lululululul2ulu2l4ul7ul4ul4ululAul11u5"),
  (0x1EEA1, "l3ul5ul11u34o2u10Eo2Cu4o64uCoFu2oFuoFuo25uAXnCo23l1Ao6l1Ao6l1Ao24u38o1DuDo2Cu4o9u7o2uEo6u9Ao3D9u3o11u3oD"),
  (0x1F6FD, "u3oDAu6oCu4ouFoCu4o38u8oAu6o28u8o1Eu2oCu4o2uEo9u27o158u8oEu2oDu3oBu3o39uou4o10u2oCu4oAu7o93uo5CnAou405"),
  (0x20000, "lA6E0u20l111Eu2l168Eu2l1D31uFl26Eu9A2l21Eu5E2l134Bu5l212AuACB87ku1Ek60u80vF0u2FE10")]

def kind (c : Char) : Char := letterIn kindTable 'o' c

def isOneOf (kinds : String) (c : Char) : Bool := kinds.toList.contains (kind c)

/-! ## Properties -/

def isLetter (c : Char) : Bool := if c.toNat < 0x80 then c.isAlpha else isOneOf "lNMSGI" c

def isLetterOrNumber (c : Char) : Bool :=
  if c.toNat < 0x80 then c.isAlphanum else isOneOf "lNMSGI" c || isOneOf "nNX" c

/-- Characters that belong to the one before them. -/
def isMark (c : Char) : Bool := isOneOf "mMsSgGv" c

/-- Marks that take no room. -/
def isNonspacing (c : Char) : Bool := isOneOf "mM" c

/-- Characters that leave no mark of their own on a line. Of the blanks, the space alone is
    shown as it is. -/
def isHidden (c : Char) : Bool :=
  if c.toNat < 0x80 then c.toNat < 0x20 || c.toNat == 0x7F else isOneOf "mMgGzkivIu" c

/-! ## Quotes

  Tab, line ends, backslash and NUL have their short escapes, the enclosing quote is
  escaped, and every other hidden character is written by its code point. -/

/-- A character inside quotes. -/
def quotedChar (quote c : Char) : String :=
  if c = '\t' then "\\t"
  else if c = '\r' then "\\r"
  else if c = '\n' then "\\n"
  else if c = '\\' then "\\\\"
  else if c = '\x00' then "\\0"
  else if c = quote then String.ofList ['\\', c]
  else if isHidden c then "\\u\x7b" ++ String.ofList (Nat.toDigits 16 c.toNat) ++ "\x7d"
  else String.ofList [c]

/-- A text in double quotes. -/
def quoted (s : String) : String :=
  "\"" ++ String.join (s.toList.map (quotedChar '"')) ++ "\""

/-- A character in single quotes. -/
def quotedSingle (c : Char) : String :=
  "'" ++ quotedChar '\'' c ++ "'"

end Magik.Text
