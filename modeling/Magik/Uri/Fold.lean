/-
  Magik.Uri.Fold — names of hosts in the form in which they are compared.

  Capitals, widths, ligatures and other variants of a character are replaced, characters
  that are not seen are left out, and some stand in no name. What is left is composed.
-/

import Magik.Text.Compose
import Magik.Text.Kind

namespace Magik.Uri

/-- Characters from U+0080 on and what replaces them: as many code points, or for a run of
    characters one for each or the one of the first. -/
def foldTable : String := "
A0>20 A8>,308 AA=a AF>20,304 B2=2 =3 >20,301 =μ B8>20,327 =1 =o BC=1⁄*42 =3⁄4 C0-D6=à D8-DE=ø 100-12E/2=ā 130>69,307
132=ij >, -136/2=ĵ 139-13D/2=ĺ 13F>6C,B7 >, -147/2=ł 149=ʼn -176/2=ŋ 178=ÿ -17D/2=ź 17F=s 181=ɓ -184/2=ƃ 186=ɔ =ƈ
189=ɖ =ɗ =ƌ 18E-191=ǝəɛƒ 193=ɠ =ɣ 196=ɩ =ɨ =ƙ 19C=ɯ =ɲ 19F=ɵ -1A4/2=ơ 1A6=ʀ =ƨ 1A9=ʃ 1AC=ƭ 1AE=ʈ =ư 1B1=ʊ =ʋ -1B5/2=ƴ
1B7=ʒ =ƹ 1BC=ƽ 1C4=dž >, >, =*lllnnn*j -1DB/2=ǎ 1DE-1EE/2=ǟ 1F1=dz >, >, =ǵ 1F6=ƕ =ƿ -21E/2=ǹ 220=ƞ 222-232/2=ȣ 23A=ⱥ
=ȼ 23D=ƚ =ⱦ 241=ɂ 243=ƀ =ʉ =ʌ -24E/2=ɇ 2B0-2B8=hɦjrɹɻʁwy 2D8>20,306 >,307 >,30A >,328 >,303 >,30B 2E0-2E4=ɣlsxʕ
340-341>300 343>313 >308,301 =ι 370-372/2=ͱ 374=ʹ 376=ͷ 37A>20,3B9 37E=; =ϳ 384>20,301 >,308,301 =ά >B7 -38A=έ 38C=ό
38E=ύ =ώ 391-3A1=α 3A3-3AB=σ 3CF-3D6=ϗβθυύϋφπ 3D8-3EE/2=ϙ 3F0=κ =ρ =σ 3F4=θ =ε 3F7=ϸ 3F9=σ =ϻ 3FD-3FF=ͻ -40F=ѐ -42F=а
460-480/2=ѡ 48A-4BE/2=ҋ 4C0=ӏ -4CD/2=ӂ 4D0-52E/2=ӑ 531-556=ա 587=եւ 675=*اوۇي*ٴ 958>915,93C >916, >917, >91C, >921,
>922, >92B, >92F, 9DC>9A1,9BC >9A2, 9DF>9AF, A33>A32,A3C A36>A38, A59>A16, >A17, >A1C, A5E>A2B, B5C>B21,B3C >B22,
E33>E4D,E32 EB3>ECD,EB2 EDC=ຫ*ນມ F0C>F0B F43>F42,FB7 F4D>F4C, F52>F51, F57>F56, F5C>F5B, F69>F40,FB5 F73>F71,F72
F75>,F74 >FB2,F80 >,F71,F80 >FB3,F80 >,F71,F80 F81>F71,F80 F93>F92,FB7 F9D>F9C, FA2>FA1, FA7>FA6, FAC>FAB, FB9>F90,FB5
10A0-10C5=ⴀ 10C7=ⴧ 10CD=ⴭ 10FC=ნ 13F8-13FD=Ᏸ 1C80-1C88=вдосттъѣꙋ >1C8A 1C90-1CBA=ა 1CBD-1CBF=ჽ 1D2C=a =æ =b 1D30=d =e
=ǝ -1D3A=g 1D3C-1D4D=oȣprtuwaɐɑᴂbdeəɛɜg 1D4F-1D6A=kmŋoɔᴖᴗptuᴝɯvᴥβγδφχiruvβγρφχ 1D78=н 1D9B-1DB0=ɒcɕðɜfɟɡɥɨɩɪᵻʝɭᶅʟɱɰɲɳɴ
-1DBF=ɵɸʂʃƫʉʊᴜʋʌzʐʑʒθ 1E00-1E94/2=ḁ 1E9A=aʾ =ṡ 1E9E=ß 1EA0-1EFE/2=ạ 1F08-1F0F=ἀ 1F18-1F1D=ἐ 1F28-1F2F=ἠ 1F38-1F3F=ἰ
1F48-1F4D=ὀ 1F59-1F5F/2=ὑ 1F68-1F6F=ὠ 1F71=ά 1F73=έ 1F75=ή 1F77=ί 1F79=ό 1F7B=ύ 1F7D=ώ
1F80=*ἀἁἂἃἄἅἆἇἀἁἂἃἄἅἆἇἠἡἢἣἤἥἦἧἠἡἢἣἤἥἦἧὠὡὢὣὤὥὦὧὠὡὢὣὤὥὦὧ*ι 1FB2=*ὰαά*ι 1FB7=ᾶι -1FBB=ᾰᾱὰά =αι >20,313 =ι >20,313 >,342
>,308,342 =*ὴηή*ι 1FC7=ῆι -1FCB=ὲέὴή =ηι >20,313,300 >,,301 >,,342 1FD3=ΐ 1FD8-1FDB=ῐῑὶί 1FDD>20,314,300 >,,301 >,,342
1FE3=ΰ 1FE8-1FEC=ῠῡὺύῥ >20,308,300 >,,301 >60 1FF2=*ὼωώ*ι 1FF7=ῶι -1FFB=ὸόὼώ =ωι >20,301 >,314
2000-200A>,20,20,20,20,20,20,20,20,20,20 2011>2010 2017>20,333 202F> 2033=′′ >,,2032 2036=‵‵ >,,2035 203C=!!
203E>20,305 2047=?*?! =!? 2057=′′′′ 205F>20 2070=0 =i 2074-2079=4 =+ >2212 >3D =( =) =n -2089=0 =+ >2212 >3D =( =)
2090-209C=aeoxəhklmnpst 20A8=rs 2100=a/*cs =c =°c 2105=c/*ou =ɛ 2109=°f -2113=ghhhhħiill 2115=n =no 2119-211D=pqrrr
2120=sm =tel =tm 2124=z 2126=ω 2128=z 212A-212D=kåbc 212F-2139=eefⅎmoאבגדi 213B=fax -213F=πγγπ >2211 2145-2149=ddeij
2150=1⁄*79 =1⁄10 =*12*⁄3 =*1234*⁄5 =*15*⁄6 =*1357*⁄8 >31, =i =ii =iii =iv =v =vi =vii =viii =ix =x =xi =xii
-2170=lcdmi =ii =iii =iv =v =vi =vii =viii =ix =x =xi =xii -217F=lcdm 2183=ↄ 2189=0⁄3 222C>222B,222B >,,222B
222F>222E,222E >,,222E 2329-232A>3008 2460-2468=1 =1*0123456789 =20 =(*123456789*) =(1*0123456789*) =(20)
249C=(*abcdefghijklmnopqrstuvwxyz*) -24CF=a -24E9> =0 2A0C>222B,222B,222B,222B 2A74>3A,3A,3D >3D,3D >,,3D
2ADC>2ADD,338 2C00-2C2F=ⰰ 2C60=ⱡ 2C62=ɫ =ᵽ =ɽ 2C67-2C6B/2=ⱨ 2C6D-2C70=ɑɱɐɒ 2C72=ⱳ 2C75=ⱶ 2C7C-2C7F=jvȿɀ -2CE2/2=ⲁ
2CEB-2CED/2=ⳬ 2CF2=ⳳ 2D6F=ⵡ 2E9F=母 2EF3=龟 2F00-2F1F=一丨丶丿乙亅二亠人儿入八冂冖冫几凵刀力勹匕匚匸十卜卩厂厶又口囗土
-2F57=士夂夊夕大女子宀寸小尢尸屮山巛工己巾干幺广廴廾弋弓彐彡彳心戈戶手支攴文斗斤方无日曰月木欠止歹殳毋比毛氏气水火爪父
-2F5C=爻爿片牙牛 -2F8B=犬玄玉瓜瓦甘生用田疋疒癶白皮皿目矛矢石示禸禾穴立竹米糸缶网羊羽老而耒耳聿肉臣自至臼舌舛舟艮色艸
-2FC3=虍虫血行衣襾見角言谷豆豕豸貝赤走足身車辛辰辵邑酉釆里金長門阜隶隹雨靑非面革韋韭音頁風飛食首香馬骨高髟鬥鬯鬲鬼魚鳥
-2FD5=鹵鹿麥麻黃黍黑黹黽鼎鼓鼠鼻齊齒龍龜龠 3000>20 3002=. 3036>3012 3038=十 =卄 =卅 309B>20,3099 >,309A 309F=より
30FF=コト 3131-3139=ᄀᄁᆪᄂᆬᆭᄃᄄᄅ -313F=ᆰ =ᄚ -3143=ᄆ =ᄡ -314E=ᄉ -3163=ᅡ 3165-3177=ᄔᄕᇇᇈᇌᇎᇓᇗᇙᄜᇝᇟᄝᄞᄠᄢᄣᄧᄩ
-318E=ᄫᄬᄭᄮᄯᄲᄶᅀᅇᅌᇱᇲᅗᅘᅙᆄᆅᆈᆑᆒᆔᆞᆡ 3192-319F=一二三四上中下甲乙丙丁天地人
3200=(*ᄀᄂᄃᄅᄆᄇᄉᄋᄌᄎᄏᄐᄑᄒ가나다라마바사아자차카타파하주*) =(오*전후*)
3220=(*一二三四五六七八九十月火水木金土日株有社名特財祝労代呼学監企資協祭休自至*) -3247=問幼文箏 3250=pte =2*123456789
=3*012345 -327B=ᄀᄂᄃᄅᄆᄇᄉᄋᄌᄎᄏᄐᄑᄒ가나다라마바사아자차카타파하 =참고 =주의 =우
3280-32B0=一二三四五六七八九十月火水木金土日株有社名特財祝労秘男女適優印注項休写正上中下左右医宗学監企資協夜 =3*6789
=4*0123456789 =50 =*123456789*月 =1*012*月 =hg =erg =ev =ltd -32E3=アイウエオカキクケコサシスセソタチツテト -32E9=ナ
-32ED=ヒフヘホ -32F2=マ =ヤ =ユ -32FA=ヨ -32FE=ワ =令和 =アパート =アルファ =アンペア =アール =イニング =インチ
=ウォン =エスクード >,30FC,30AB, =オンス =オーム =カイリ =カラット =カロリー =ガロン =ガンマ =ギガ =ギニー =キュリー
=ギルダー =キロ =キログラム =キロメートル >,,30EF,30C3, =グラム >,,,30C8,30F3 =クルゼイロ =クローネ =ケース =コルナ
=コーポ =サイクル =サンチーム =シリング =セン*チト =ダース =デシ =ドル =トン =ナノ =ノット =ハイツ =パーセント >,,30C4
=バーレル =ピアストル =ピクル >,30B3 =ビル =ファラッド =フィート =ブッシェル =フラン =ヘクタール =ペソ =ペニヒ =ヘルツ
=ペンス =ページ =ベータ =ポイント =ボルト =ホン =ポンド =ホー*ルン =マイクロ >,,30EB =マッハ =マルク =マンション
=ミクロン >,30EA =ミリバール =メガ >,,30C8,30F3 >,30FC,,30EB =ヤー*ドル =ユアン =リットル >,30E9 =ルピー =ルーブル
=レム =レントゲン =ワット =*0123456789*点 =1*0123456789*点 =2*01234*点 =hpa =da =au =bar =ov =pc =dm =dm*23 =iu =平成
=昭和 =大正 =明治 =株式会社 =*pnμmk*a =*kmg*b =cal =kcal =*pnμ*f =*μmk*g =hz =*kmgt*hz =*μmdk*l =*fnμmck*m =*mc*m2 =m2
=km2 =*mc*m3 =m3 =km3 =m∕s >,,,32 =pa =*kmg*pa =rad =rad∕s >,,,,,32 =*pnμm*s =*pnμmkm*v =*pnμmkm*w =*km*ω 33C3=bq
=c*cd =c∕kg 33C8=db =gy =h*ap =in =k*kmt =l*mn =log =lx =mb =m*io*l =ph 33D9=ppm =pr =s*rv =wb =*va*∕m =*123456789*日
=1*0123456789*日 =2*0123456789*日 =3*01*日 =gal A640-A66C/2=ꙁ A680-A69A/2=ꚁ A69C=ъ =ь A722-A72E/2=ꜣ A732-A76E/2=ꜳ
A770=ꝯ A779-A77B/2=ꝺ A77D=ᵹ -A786/2=ꝿ A78B=ꞌ A78D=ɥ A790-A792/2=ꞑ A796-A7A8/2=ꞗ A7AA-A7AE=ɦɜɡɬɪ A7B0-A7B3=ʞʇʝꭓ
-A7C2/2=ꞵ A7C4=ꞔ =ʂ =ᶎ -A7C9/2=ꟈ A7CB=ɤ -A7DA/2>A7CD A7DC=ƛ A7F1-A7F5=scfqꟶ A7F8=ħ =œ AB5C-AB5F=ꜧꬷɫꭒ AB69=ʍ
AB70-ABBF=Ꭰ F900-F91B=豈更車賈滑串句龜龜契金喇奈懶癩羅蘿螺裸邏樂洛烙珞落酪駱亂 -F92B=卵欄爛蘭鸞嵐濫藍襤拉臘蠟廊朗浪狼
-F963=郎來冷勞擄櫓爐盧老蘆虜路露魯鷺碌祿綠菉錄鹿論壟弄籠聾牢磊賂雷壘屢樓淚漏累縷陋勒肋凜凌稜綾菱陵讀拏樂諾丹寧怒率異北
-F994=磻便復不泌數索參塞省葉說殺辰沈拾若掠略亮兩凉梁糧良諒量勵呂女廬旅濾礪閭驪麗黎力曆歷轢年憐戀撚漣煉璉
-F9CC=秊練聯輦蓮連鍊列劣咽烈裂說廉念捻殮簾獵令囹寧嶺怜玲瑩羚聆鈴零靈領例禮醴隸惡了僚寮尿料樂燎療蓼遼龍暈阮劉杻柳流溜琉
-FA04=留硫紐類六戮陸倫崙淪輪律慄栗率隆利吏履易李梨泥理痢罹裏裡里離匿溺吝燐璘藺隣鱗麟林淋臨立笠粒狀炙識什茶刺切度拓糖宅
-FA0D=洞暴輻行降見廓兀嗀 FA10=塚 FA12=晴 FA15-FA1E=凞猪益礼神祥福靖精羽 FA20=蘒 FA22=諸 FA25=逸 =都
FA2A-FA5F=飯飼館鶴郞隷侮僧免勉勤卑喝嘆器塀墨層屮悔慨憎懲敏既暑梅海渚漢煮爫琢碑社祉祈祐祖祝禍禎穀突節練縉繁署者臭艹艹著
-FA6D=褐視謁謹賓贈辶逸難響頻恵𤋮舘 FA70-FA93=並况全侀充冀勇勺喝啕喙嗢塚墳奄奔婢嬨廒廙彩徭惘慎愈憎慠懲戴揄搜摒敖晴朗望
-FACB=杖歹殺流滛滋漢瀞煮瞧爵犯猪瑱甆画瘝瘟益盛直睊着磌窱節类絛練缾者荒華蝹襁覆視調諸請謁諾諭謹變贈輸遲醙鉶陼難靖韛響頋
-FAD9=頻鬒龜𢡊𢡄𣏕㮝䀘䀹𥉉𥳐𧻓齃龎 FB00=f*fil =ff*il =st >, FB13=մ*նեի =վն =մխ FB1D>5D9,5B4 FB1F>5F2,5B7
-FB29=עאדהכלםרת+ >5E9,5C1 >,5C2 >,5BC,5C1 >,,5C2 >5D0,5B7 >,5B8 >,5BC >5D1, >5D2, >5D3, >5D4, >5D5, >5D6, FB38>5D8,
>5D9, >5DA, >5DB, >5DC, FB3E>5DE, FB40>5E0, >5E1, FB43>5E3, >5E4, FB46>5E6, >5E7, >5E8, >5E9, >5EA, >5D5,5B9 >5D1,5BF
>5DB, >5E4, =אל -FBAF=ٱٱٻٻٻٻپپپپڀڀڀڀٺٺٺٺٿٿٿٿٹٹٹٹڤڤڤڤڦڦڦڦڄڄڄڄڃڃڃڃچچچچڇڇڇڇڍڍڌڌڎڎڈڈژژڑڑککککگگگگڳڳڳڳڱڱڱڱںںڻڻڻڻۀۀہہہہھھھھےے
-FBB1=ۓۓ FBD3-FBDC=ڭڭڭڭۇۇۆۆۈۈ =ۇٴ -FBE9=ۋۋۅۅۉۉېېېېىى =ئ*ااەەووۇۇۆۆۈۈېېېىىى -FBFF=یییی =ئ*جحمىي =ب*جحخمىي =ت*جحخمىي
=ث*جمىي =ج*حم =ح*جم =خ*جحم =س*جحخم =ص*حم =ض*جحخم =ط*حم =ظم =ع*جم =غ*جم =ف*جحخمىي =ق*حمىي =ك*اجحخلمىي =ل*جحخمىي
=م*جحخمىي =ن*جحخمىي =ه*جمىي =ي*جحخمىي >630,670 >631, >649, >20,64C,651 >,64D, >,64E, >,64F, >,650, >,651,670 =ئ*رزمنىي
=ب*رزمنىي =ت*رزمنىي =ث*رزمنىي =ف*ىي =ق*ىي =ك*المىي =ل*مىي =م*ام =ن*رزمنىي >649,670 =ي*رزمنىي =ئ*جحخمه =ب*جحخمه
=ت*جحخمه =ثم =ج*حم =ح*جم =خ*جم =س*جحخم =ص*حخم =ض*جحخم =طح =ظم =ع*جم =غ*جم =ف*جحخم =ق*حم =ك*جحخلم =ل*جحخمه =م*جحخم
=ن*جحخمه =ه*جم >,670 =ي*جحخمه =ئ*مه =ب*مه =ت*مه =ث*مه =س*مه =ش*مه =كل =*كلن*م =نه =ي*مه >640,64E,651 >,64F, >,650,
=ط*ىي =ع*ىي =غ*ىي =س*ىي =ش*ىي =ح*ىي =ج*ىي =خ*ىي =ص*ىي =ض*ىي =ش*جحخم =*شسصض*ر =ط*ىي =ع*ىي =غ*ىي =س*ىي =ش*ىي =ح*ىي =ج*ىي
=خ*ىي =ص*ىي =ض*ىي =ش*جحخم =*شسصض*ر =ش*جحخم =*سش*ه =طم =س*جحخ =ش*جحخ =*طظ*م >627,64B >, FD50=تجم =تح*ججم >,62E, =تم*جحخ
=جمح >,, =حم*يى =سحج =سج*حى =سم*ححجمم =صحح >,, =صمم =شحم >,, =شجي =شم*خخمم =ضحى =ضخم >,, =طم*ححمي =عجم =عم*ممى =غم*ميى
=فخم >,, =قم*حم =لح*ميى =لجج >,, =لخم >,, =لمح >,, =مح*جمي =مج*حم =مخ*جم FD92=مجخ =هم*جم =نح*مى =نج*ممى =نم*يى =يمم
>,, =بخي =تج*يى =تخ*يى =تم*يى =جمي =ج*حم*ى =سخى =*صشض*حي =ل*جم*ي =ي*حج*ي =*يمق*مي =نحي =قمح =لحم =*عك*مي =نجح =مخي
=لجم =كمم =لجم =نجح =جحي =*حم*جي =فمي =بحي =كمم =عجم =صمم =سخي =نجي FDF0=*صق*لے =الله =اكبر =محمد =صلعم =رسول =عليه
=وسلم =صلى >,,,20,627,644,644,647,20,639,644,64A,647,20,648,633,644,645 >62C,,20,62C,644,627,, =ریال FE10=, >3001
FE13-FE16=:;!? -FE18>3016 FE31>2014 >2013 -FE36=__() >7B >7D =〔 =〕 -FE3C>3010 -FE3E>300A -FE40>3008 -FE44>300C
FE47=[ =] >20,305 >, >, >, -FE50=___, >3001 FE54-FE57=;:?! >2014 =( =) >7B >7D -FE60=〔〕#& >2A =+ =- =< >3E >3D
FE68>5C =$ =% =@ FE70>20,64B >640, >20,64C FE74>,64D FE76>,64E >640, >20,64F >640, >20,650 >640, >20,651 >640, >20,652
>640, -FEE9=ءآآأأؤؤإإئئئئااببببةةتتتتثثثثججججححححخخخخددذذررززسسسسششششصصصصضضضضططططظظظظععععغغغغففففققققككككللللممممننننه
-FEF4=هههووىىيييي =ل*آآأأإإاا FF01-FF20=! -FF3A=a -FF5E=[ -FF60>2985 =. -FF63>300C >3001 >30FB
-FF84=ヲァィゥェォャュョッーアイウエオカキクケコサシスセソタチツテト -FF8A=ナ -FF8E=ヒフヘホ -FF93=マ =ヤ =ユ -FF9B=ヨ
=ワ =ン -FF9F>3099 FFA1-FFA9=ᄀᄁᆪᄂᆬᆭᄃᄄᄅ -FFAF=ᆰ =ᄚ -FFB3=ᄆ =ᄡ -FFBE=ᄉ FFC2-FFC7=ᅡ FFCA-FFCF=ᅧ FFD2-FFD7=ᅭ
FFDA-FFDC=ᅳ FFE0>A2 >A3 >AC >20,304 >A6 >A5 >20A9 FFE8>2502 -FFEC>2190 >25A0 >25CB 10400-10427=𐐨 104B0-104D3=𐓘
10570-1057A=𐖗 1057C-1058A=𐖣 1058C-10592=𐖳 10594=𐖻 =𐖼 10781-10785=ːˑæʙɓ 10787-107A9=ʣꭦʥʤɖɗᶑɘɞʩɤɢɠʛħʜɧʄʪʫɬ𝼄ꞎɮ𝼅ʎ𝼆øɶɷqɺ𝼈ɽɾ
-107B0=ʀʨʦꭧʧʈⱱ 107B2-107BA=ʏʡʢʘǀǁǂ𝼊𝼞 10C80-10CB2=𐳀 10D50-10D65>10D70 118A0-118BF=𑣀 16E40-16E5F=𖹠 16EA0-16EB8>16EBB
1CCD6-1CCEF=a -1CCF9=0 1D15E>1D157,1D165 >1D158, >,,1D16E >,,1D16F >,,1D170 >,,1D171 >,,1D172 1D1BB>1D1B9, >1D1BA,
>1D1B9,,1D16E >1D1BA,, >1D1B9,,1D16F >1D1BA,, 1D400-1D419=a -1D433> -1D44D> -1D454> 1D456-1D467=i -1D481=a -1D49B> >
1D49E=c =d 1D4A2=g 1D4A5=j =k 1D4A9-1D4AC=n 1D4AE-1D4B5=s =a =b =c -1D4BD/2=d -1D4C3=i 1D4C5-1D4CF=p -1D4E9=a -1D503>
> =b 1D507-1D50A=d 1D50D-1D514=j 1D516-1D51C=s 1D51E-1D537=a > =b 1D53B-1D53E=d 1D540-1D544=i 1D546=o 1D54A-1D550=s
1D552-1D56B=a -1D585> -1D59F> -1D5B9> -1D5D3> -1D5ED> -1D607> -1D621> -1D63B> -1D655> -1D66F> -1D689> -1D6A3> =ı =ȷ
1D6A8-1D6B8=α =θ -1D6C0=σ >2207 -1D6D2=α =σ -1D6DA> >2202 -1D6E1=εθκφρπ -1D6F2=α =θ -1D6FA=σ >2207 -1D70C=α =σ -1D714>
>2202 -1D71B=εθκφρπ -1D72C=α =θ -1D734=σ >2207 -1D746=α =σ -1D74E> >2202 -1D755=εθκφρπ -1D766=α =θ -1D76E=σ >2207
-1D780=α =σ -1D788> >2202 -1D78F=εθκφρπ -1D7A0=α =θ -1D7A8=σ >2207 -1D7BA=α =σ -1D7C2> >2202 -1D7CB=εθκφρπϝϝ
1D7CE-1D7D7=0 -1D7E1> -1D7EB> -1D7F5> -1D7FF> 1E030-1E038=а -1E03B=к -1E046=о -1E050=ыэюꚉәіјөүӏ -1E059=а
-1E06D=клопсуфхцчшъыґіѕџҫꙑұ 1E900-1E921=𞤢 1EE00=ا =ب =ج =د 1EE05-1EE1F=وزحطيكلمنسعفصقرشتثخذضظغٮںڡٯ 1EE21=ب =ج 1EE24=ه
1EE27=ح 1EE29-1EE32=يكلمنسعفصق 1EE34=ش =ت =ث =خ 1EE39=ض 1EE3B=غ 1EE42=ج 1EE47=ح 1EE49=ي 1EE4B-1EE4D/2=ل =س =ع 1EE51=ص
=ق 1EE54=ش 1EE57=خ 1EE59=ض 1EE5B=غ 1EE5D=ں 1EE5F=ٯ 1EE61=ب =ج 1EE64=ه 1EE67=ح =ط =ي =ك 1EE6C-1EE72=منسعفصق 1EE74=ش =ت
=ث =خ 1EE79=ض =ظ =غ =ٮ 1EE7E=ڡ 1EE80-1EE89=ابجدهوزحطي 1EE8B-1EE9B=لمنسعفصقرشتثخذضظغ 1EEA1=ب =ج =د 1EEA5-1EEA9=وزحطي
1EEAB-1EEBB=لمنسعفصقرشتثخذضظغ 1F101=*0123456789*, 1F110=(*abcdefghijklmnopqrstuvwxyz*) =〔s〕 =c =r =cd =wz
1F130-1F149=a =*hm*v =s*ds =ppv =wc 1F16A=m*cdr 1F190=dj 1F200=ほか =ココ =サ 1F210-1F21D=手字双デ二多解天交映無料前後
-1F23B=再新初終生販声吹演投捕一三遊左中右指走打禁空合満有月申割営配 1F240=〔*本三二安点打盗勝敗*〕 1F250=得 =可
1FBF0-1FBF9=0 2F800-2F82D=丽丸乁𠄢你侮侻倂偺備僧像㒞𠘺免兔兤具𠔜㒹內再𠕋冗冤仌冬况𩇟凵刃㓟刻剆割剷㔕勇勉勤勺包匆北卉卑
-2F839=博即卽卿卿卿𠨬灰及叟𠭣叫 -2F860=叱吆咞吸呈周咢哶唐啓啣善善喙喫喳嗂圖嘆圗噑噴切壮城埴堍型堲報墬𡓤売壷夆多夢奢𡚨
-2F897=𡛪姬娛娧姘婦㛮㛼嬈嬾嬾𡧈寃寘寧寳𡬘寿将当尢㞁屠屮峀岍𡷤嵃𡷦嵮嵫嵼巡巢㠯巽帨帽幩㡢𢆃㡼庰庳庶廊𪎒廾𢌱𢌱舁弢弢㣇𣊸
-2F8B2=𦇚形彫㣣徚忍志忹悁㤺㤜悔𢛔惇慈慌慎慌慺憎憲憤憯懞懲懶成 -2F8CA=戛扝抱拔捐𢬌挽拼捨掃揤𢯱搢揅掩㨮摩摾撝摷㩬敏敬𣀊
-2F901=旣書晉㬙暑㬈㫤冒冕最暜肭䏙朗望朡杞杓𣏃㭉柺枅桒梅𣑭梎栟椔㮝楂榣槪檨𣚣櫛㰘次𣢧歔㱎歲殟殺殻𣪍𡴋𣫺汎𣲼沿泍汧洖派海
-2F92B=流浩浸涅𣴞洴港湮㴳滋滇𣻑淹潮𣽞𣾎濆瀹瀞瀛㶖灊災灷炭𠔥煅𤉣熜𤎫爨爵牐𤘈犀犕𤜵𤠔獺王㺬玥
-2F962=㺸㺸瑇瑜瑱璅瓊㼛甤𤰶甾𤲒異𢆟瘐𤾡𤾸𥁄㿼䀈直𥃳𥃲𥄙𥄳眞真真睊䀹瞋䁆䂖𥐝硎碌磌䃣𥘦祖𥚚𥛅福秫䄯穀穊穏𥥼𥪧𥪧竮䈂𥮫篆
-2F999=築䈧𥲀糒䊠糨糣紀𥾆絣䌁緇縂繅䌴𦈨𦉇䍙𦋙罺𦌾羕翺者𦓚𦔣聠𦖨聰𣍟䏕育脃䐋脾媵𦞧𦞵𣎓𣎜舁舄辞䑫芑芋芝劳花芳芽苦𦬼若茝
-2F9A4=荣莭茣莽菧著荓菊菌菜𦰶 -2F9CC=𦵫𦳕䔫蓱蓳蔖𧏊蕤𦼬䕝䕡𦾱𧃒䕫虐虜虧虩蚩蚈蜎蛢蝹蜨蝫螆䗗蟡蠁䗹衠衣𧙧裗裞䘵裺㒻𧢮𧥦
-2FA03=䚾䛇誠諭變豕𧲨貫賁贛起𧼯𠠄跋趼跰𠣞軔輸𨗒𨗭邔郱鄑𨜮鄛鈸鋗鋘鉼鏹鐕𨯺開䦕閷𨵷䧦雃嶲霣𩅅𩈚䩮䩶韠𩐊䪲𩒖頋頋頩𩖶飢䬳
-2FA1D=餩馧駂駾䯎𩬰鬒鱀鳽䳎䳭鵧𪃎䳸𪄅𪈎𪊑麻䵖黹黾鼅鼏鼖鼻𪘀
"

def foldRows : List Text.Row := Text.rows foldTable

/-- Characters that are left out. -/
def isSilent (c : Char) : Bool := Text.isOneOf "ivI" c

/-- Characters that stand in no name. -/
def isRefused (c : Char) : Bool := Text.isOneOf "kxXu" c

/-- What stands for a character in a name; none if it must not stand there. -/
def foldChar (c : Char) : Option (List Char) :=
  if c.toNat < 0x80 then some [c.toLower]
  else if isRefused c then none
  else if isSilent c then some []
  else
    match Text.row? foldRows c with
    | some ⟨first, _, _, [target]⟩ => some [Char.ofNat (target + (c.toNat - first))]
    | some ⟨first, last, _, targets⟩ =>
      some ((if first = last then targets else targets[c.toNat - first]?.toList).map Char.ofNat)
    | none => some [c]

/-- A name in the form in which it is compared. -/
def fold (name : List Char) : Option (List Char) := (name.mapM foldChar).map fun parts => Text.compose parts.flatten

end Magik.Uri
