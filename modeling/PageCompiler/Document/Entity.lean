import Std.Data.HashMap
import PageCompiler.Text.Search

/-!
# Named character references

The names that may follow an ampersand in a document and the characters that they stand for. Some names may
be written without the semicolon at their end.
-/

namespace PageCompiler.Document

/-- The names, those of the same characters together, with the code points of these in hexadecimal digits. A name with
an exclamation mark may also be written without a semicolon. -/
def entityLines : List String :=
  ["AElig!=C6 AMP!|amp!=26 Aacute!=C1 Abreve=102 Acirc!=C2 Acy=410 Afr=1D504 Agrave!=C0 Alpha=391 Amacr=100",
   "And=2A53 Aogon=104 Aopf=1D538 ApplyFunction|af=2061 Aring!|angst=C5 Ascr=1D49C Assign|colone|coloneq=2254",
   "Atilde!=C3 Auml!=C4 Backslash|setminus|setmn|smallsetminus|ssetmn=2216 Barv=2AE7 Barwed|doublebarwedge=2306",
   "Bcy=411 Because|becaus|because=2235 Bernoullis|Bscr|bernou=212C Beta=392 Bfr=1D505 Bopf=1D539",
   "Breve|breve=2D8 Bumpeq|HumpDownHump|bump=224E CHcy=427 COPY!|copy!=A9 Cacute=106 Cap=22D2",
   "CapitalDifferentialD|DD=2145 Cayleys|Cfr=212D Ccaron=10C Ccedil!=C7 Ccirc=108 Cconint=2230 Cdot=10A",
   "Cedilla|cedil!=B8 CenterDot|centerdot|middot!=B7 Chi=3A7 CircleDot|odot=2299 CircleMinus|ominus=2296",
   "CirclePlus|oplus=2295 CircleTimes|otimes=2297 ClockwiseContourIntegral|cwconint=2232",
   "CloseCurlyDoubleQuote|rdquo|rdquor=201D CloseCurlyQuote|rsquo|rsquor=2019 Colon|Proportion=2237 Colone=2A74",
   "Congruent|equiv=2261 Conint|DoubleContourIntegral=222F ContourIntegral|conint|oint=222E Copf|complexes=2102",
   "Coproduct|coprod=2210 CounterClockwiseContourIntegral|awconint=2233 Cross=2A2F Cscr=1D49E Cup=22D3",
   "CupCap|asympeq=224D DDotrahd=2911 DJcy=402 DScy=405 DZcy=40F Dagger|ddagger=2021 Darr=21A1",
   "Dashv|DoubleLeftTee=2AE4 Dcaron=10E Dcy=414 Del|nabla=2207 Delta=394 Dfr=1D507 DiacriticalAcute|acute!=B4",
   "DiacriticalDot|dot=2D9 DiacriticalDoubleAcute|dblac=2DD DiacriticalGrave|grave=60 DiacriticalTilde|tilde=2DC",
   "Diamond|diam|diamond=22C4 DifferentialD|dd=2146 Dopf=1D53B Dot|DoubleDot|die|uml!=A8 DotDot=20DC",
   "DotEqual|doteq|esdot=2250 DoubleDownArrow|Downarrow|dArr=21D3 DoubleLeftArrow|Leftarrow|lArr=21D0",
   "DoubleLeftRightArrow|Leftrightarrow|hArr|iff=21D4 DoubleLongLeftArrow|Longleftarrow|xlArr=27F8",
   "DoubleLongLeftRightArrow|Longleftrightarrow|xhArr=27FA DoubleLongRightArrow|Longrightarrow|xrArr=27F9",
   "DoubleRightArrow|Implies|Rightarrow|rArr=21D2 DoubleRightTee|vDash=22A8 DoubleUpArrow|Uparrow|uArr=21D1",
   "DoubleUpDownArrow|Updownarrow|vArr=21D5 DoubleVerticalBar|par|parallel|shortparallel|spar=2225",
   "DownArrow|ShortDownArrow|darr|downarrow=2193 DownArrowBar=2913 DownArrowUpArrow|duarr=21F5 DownBreve=311",
   "DownLeftRightVector=2950 DownLeftTeeVector=295E DownLeftVector|leftharpoondown|lhard=21BD",
   "DownLeftVectorBar=2956 DownRightTeeVector=295F DownRightVector|rhard|rightharpoondown=21C1",
   "DownRightVectorBar=2957 DownTee|top=22A4 DownTeeArrow|mapstodown=21A7 Dscr=1D49F Dstrok=110 ENG=14A ETH!=D0",
   "Eacute!=C9 Ecaron=11A Ecirc!=CA Ecy=42D Edot=116 Efr=1D508 Egrave!=C8 Element|in|isin|isinv=2208 Emacr=112",
   "EmptySmallSquare=25FB EmptyVerySmallSquare=25AB Eogon=118 Eopf=1D53C Epsilon=395 Equal=2A75",
   "EqualTilde|eqsim|esim=2242 Equilibrium|rightleftharpoons|rlhar=21CC Escr|expectation=2130 Esim=2A73 Eta=397",
   "Euml!=CB Exists|exist=2203 ExponentialE|ee|exponentiale=2147 Fcy=424 Ffr=1D509 FilledSmallSquare=25FC",
   "FilledVerySmallSquare|blacksquare|squarf|squf=25AA Fopf=1D53D ForAll|forall=2200 Fouriertrf|Fscr=2131",
   "GJcy=403 GT!|gt!=3E Gamma=393 Gammad=3DC Gbreve=11E Gcedil=122 Gcirc=11C Gcy=413 Gdot=120 Gfr=1D50A",
   "Gg|ggg=22D9 Gopf=1D53E GreaterEqual|ge|geq=2265 GreaterEqualLess|gel|gtreqless=22DB",
   "GreaterFullEqual|gE|geqq=2267 GreaterGreater=2AA2 GreaterLess|gl|gtrless=2277",
   "GreaterSlantEqual|geqslant|ges=2A7E GreaterTilde|gsim|gtrsim=2273 Gscr=1D4A2 Gt|NestedGreaterGreater|gg=226B",
   "HARDcy=42A Hacek|caron=2C7 Hat=5E Hcirc=124 Hfr|Poincareplane=210C HilbertSpace|Hscr|hamilt=210B",
   "Hopf|quaternions=210D HorizontalLine|boxh=2500 Hstrok=126 HumpEqual|bumpe|bumpeq=224F IEcy=415 IJlig=132",
   "IOcy=401 Iacute!=CD Icirc!=CE Icy=418 Idot=130 Ifr|Im|image|imagpart=2111 Igrave!=CC Imacr=12A",
   "ImaginaryI|ii=2148 Int=222C Integral|int=222B Intersection|bigcap|xcap=22C2 InvisibleComma|ic=2063",
   "InvisibleTimes|it=2062 Iogon=12E Iopf=1D540 Iota=399 Iscr|imagline=2110 Itilde=128 Iukcy=406 Iuml!=CF",
   "Jcirc=134 Jcy=419 Jfr=1D50D Jopf=1D541 Jscr=1D4A5 Jsercy=408 Jukcy=404 KHcy=425 KJcy=40C Kappa=39A",
   "Kcedil=136 Kcy=41A Kfr=1D50E Kopf=1D542 Kscr=1D4A6 LJcy=409 LT!|lt!=3C Lacute=139 Lambda=39B Lang=27EA",
   "Laplacetrf|Lscr|lagran=2112 Larr|twoheadleftarrow=219E Lcaron=13D Lcedil=13B Lcy=41B",
   "LeftAngleBracket|lang|langle=27E8 LeftArrow|ShortLeftArrow|larr|leftarrow|slarr=2190 LeftArrowBar|larrb=21E4",
   "LeftArrowRightArrow|leftrightarrows|lrarr=21C6 LeftCeiling|lceil=2308 LeftDoubleBracket|lobrk=27E6",
   "LeftDownTeeVector=2961 LeftDownVector|dharl|downharpoonleft=21C3 LeftDownVectorBar=2959",
   "LeftFloor|lfloor=230A LeftRightArrow|harr|leftrightarrow=2194 LeftRightVector=294E LeftTee|dashv=22A3",
   "LeftTeeArrow|mapstoleft=21A4 LeftTeeVector=295A LeftTriangle|vartriangleleft|vltri=22B2 LeftTriangleBar=29CF",
   "LeftTriangleEqual|ltrie|trianglelefteq=22B4 LeftUpDownVector=2951 LeftUpTeeVector=2960",
   "LeftUpVector|uharl|upharpoonleft=21BF LeftUpVectorBar=2958 LeftVector|leftharpoonup|lharu=21BC",
   "LeftVectorBar=2952 LessEqualGreater|leg|lesseqgtr=22DA LessFullEqual|lE|leqq=2266",
   "LessGreater|lessgtr|lg=2276 LessLess=2AA1 LessSlantEqual|leqslant|les=2A7D LessTilde|lesssim|lsim=2272",
   "Lfr=1D50F Ll=22D8 Lleftarrow|lAarr=21DA Lmidot=13F LongLeftArrow|longleftarrow|xlarr=27F5",
   "LongLeftRightArrow|longleftrightarrow|xharr=27F7 LongRightArrow|longrightarrow|xrarr=27F6 Lopf=1D543",
   "LowerLeftArrow|swarr|swarrow=2199 LowerRightArrow|searr|searrow=2198 Lsh|lsh=21B0 Lstrok=141",
   "Lt|NestedLessLess|ll=226A Map=2905 Mcy=41C MediumSpace=205F Mellintrf|Mscr|phmmat=2133 Mfr=1D510",
   "MinusPlus|mnplus|mp=2213 Mopf=1D544 Mu=39C NJcy=40A Nacute=143 Ncaron=147 Ncedil=145 Ncy=41D",
   "NegativeMediumSpace|NegativeThickSpace|NegativeThinSpace|NegativeVeryThinSpace|ZeroWidthSpace=200B NewLine=A",
   "Nfr=1D511 NoBreak=2060 NonBreakingSpace|nbsp!=A0 Nopf|naturals=2115 Not=2AEC NotCongruent|nequiv=2262",
   "NotCupCap=226D NotDoubleVerticalBar|npar|nparallel|nshortparallel|nspar=2226 NotElement|notin|notinva=2209",
   "NotEqual|ne=2260 NotEqualTilde|nesim=2242,338 NotExists|nexist|nexists=2204 NotGreater|ngt|ngtr=226F",
   "NotGreaterEqual|nge|ngeq=2271 NotGreaterFullEqual|ngE|ngeqq=2267,338 NotGreaterGreater|nGtv=226B,338",
   "NotGreaterLess|ntgl=2279 NotGreaterSlantEqual|ngeqslant|nges=2A7E,338 NotGreaterTilde|ngsim=2275",
   "NotHumpDownHump|nbump=224E,338 NotHumpEqual|nbumpe=224F,338 NotLeftTriangle|nltri|ntriangleleft=22EA",
   "NotLeftTriangleBar=29CF,338 NotLeftTriangleEqual|nltrie|ntrianglelefteq=22EC NotLess|nless|nlt=226E",
   "NotLessEqual|nle|nleq=2270 NotLessGreater|ntlg=2278 NotLessLess|nLtv=226A,338",
   "NotLessSlantEqual|nleqslant|nles=2A7D,338 NotLessTilde|nlsim=2274 NotNestedGreaterGreater=2AA2,338",
   "NotNestedLessLess=2AA1,338 NotPrecedes|npr|nprec=2280 NotPrecedesEqual|npre|npreceq=2AAF,338",
   "NotPrecedesSlantEqual|nprcue=22E0 NotReverseElement|notni|notniva=220C",
   "NotRightTriangle|nrtri|ntriangleright=22EB NotRightTriangleBar=29D0,338",
   "NotRightTriangleEqual|nrtrie|ntrianglerighteq=22ED NotSquareSubset=228F,338",
   "NotSquareSubsetEqual|nsqsube=22E2 NotSquareSuperset=2290,338 NotSquareSupersetEqual|nsqsupe=22E3",
   "NotSubset|nsubset|vnsub=2282,20D2 NotSubsetEqual|nsube|nsubseteq=2288 NotSucceeds|nsc|nsucc=2281",
   "NotSucceedsEqual|nsce|nsucceq=2AB0,338 NotSucceedsSlantEqual|nsccue=22E1 NotSucceedsTilde=227F,338",
   "NotSuperset|nsupset|vnsup=2283,20D2 NotSupersetEqual|nsupe|nsupseteq=2289 NotTilde|nsim=2241",
   "NotTildeEqual|nsime|nsimeq=2244 NotTildeFullEqual|ncong=2247 NotTildeTilde|nap|napprox=2249",
   "NotVerticalBar|nmid|nshortmid|nsmid=2224 Nscr=1D4A9 Ntilde!=D1 Nu=39D OElig=152 Oacute!=D3 Ocirc!=D4 Ocy=41E",
   "Odblac=150 Ofr=1D512 Ograve!=D2 Omacr=14C Omega|ohm=3A9 Omicron=39F Oopf=1D546",
   "OpenCurlyDoubleQuote|ldquo=201C OpenCurlyQuote|lsquo=2018 Or=2A54 Oscr=1D4AA Oslash!=D8 Otilde!=D5",
   "Otimes=2A37 Ouml!=D6 OverBar|oline=203E OverBrace=23DE OverBracket|tbrk=23B4 OverParenthesis=23DC",
   "PartialD|part=2202 Pcy=41F Pfr=1D513 Phi=3A6 Pi=3A0 PlusMinus|plusmn!|pm=B1 Popf|primes=2119 Pr=2ABB",
   "Precedes|pr|prec=227A PrecedesEqual|pre|preceq=2AAF PrecedesSlantEqual|prcue|preccurlyeq=227C",
   "PrecedesTilde|precsim|prsim=227E Prime=2033 Product|prod=220F Proportional|prop|propto|varpropto|vprop=221D",
   "Pscr=1D4AB Psi=3A8 QUOT!|quot!=22 Qfr=1D514 Qopf|rationals=211A Qscr=1D4AC RBarr|drbkarow=2910",
   "REG!|circledR|reg!=AE Racute=154 Rang=27EB Rarr|twoheadrightarrow=21A0 Rarrtl=2916 Rcaron=158 Rcedil=156",
   "Rcy=420 Re|Rfr|real|realpart=211C ReverseElement|SuchThat|ni|niv=220B",
   "ReverseEquilibrium|leftrightharpoons|lrhar=21CB ReverseUpEquilibrium|duhar=296F Rho=3A1",
   "RightAngleBracket|rang|rangle=27E9 RightArrow|ShortRightArrow|rarr|rightarrow|srarr=2192",
   "RightArrowBar|rarrb=21E5 RightArrowLeftArrow|rightleftarrows|rlarr=21C4 RightCeiling|rceil=2309",
   "RightDoubleBracket|robrk=27E7 RightDownTeeVector=295D RightDownVector|dharr|downharpoonright=21C2",
   "RightDownVectorBar=2955 RightFloor|rfloor=230B RightTee|vdash=22A2 RightTeeArrow|map|mapsto=21A6",
   "RightTeeVector=295B RightTriangle|vartriangleright|vrtri=22B3 RightTriangleBar=29D0",
   "RightTriangleEqual|rtrie|trianglerighteq=22B5 RightUpDownVector=294F RightUpTeeVector=295C",
   "RightUpVector|uharr|upharpoonright=21BE RightUpVectorBar=2954 RightVector|rharu|rightharpoonup=21C0",
   "RightVectorBar=2953 Ropf|reals=211D RoundImplies=2970 Rrightarrow|rAarr=21DB Rscr|realine=211B Rsh|rsh=21B1",
   "RuleDelayed=29F4 SHCHcy=429 SHcy=428 SOFTcy=42C Sacute=15A Sc=2ABC Scaron=160 Scedil=15E Scirc=15C Scy=421",
   "Sfr=1D516 ShortUpArrow|UpArrow|uarr|uparrow=2191 Sigma=3A3 SmallCircle|compfn=2218 Sopf=1D54A",
   "Sqrt|radic=221A Square|squ|square=25A1 SquareIntersection|sqcap=2293 SquareSubset|sqsub|sqsubset=228F",
   "SquareSubsetEqual|sqsube|sqsubseteq=2291 SquareSuperset|sqsup|sqsupset=2290",
   "SquareSupersetEqual|sqsupe|sqsupseteq=2292 SquareUnion|sqcup=2294 Sscr=1D4AE Star|sstarf=22C6",
   "Sub|Subset=22D0 SubsetEqual|sube|subseteq=2286 Succeeds|sc|succ=227B SucceedsEqual|sce|succeq=2AB0",
   "SucceedsSlantEqual|sccue|succcurlyeq=227D SucceedsTilde|scsim|succsim=227F Sum|sum=2211 Sup|Supset=22D1",
   "Superset|sup|supset=2283 SupersetEqual|supe|supseteq=2287 THORN!=DE TRADE|trade=2122 TSHcy=40B TScy=426",
   "Tab=9 Tau=3A4 Tcaron=164 Tcedil=162 Tcy=422 Tfr=1D517 Therefore|there4|therefore=2234 Theta=398",
   "ThickSpace=205F,200A ThinSpace|thinsp=2009 Tilde|sim|thicksim|thksim=223C TildeEqual|sime|simeq=2243",
   "TildeFullEqual|cong=2245 TildeTilde|ap|approx|asymp|thickapprox|thkap=2248 Topf=1D54B TripleDot|tdot=20DB",
   "Tscr=1D4AF Tstrok=166 Uacute!=DA Uarr=219F Uarrocir=2949 Ubrcy=40E Ubreve=16C Ucirc!=DB Ucy=423 Udblac=170",
   "Ufr=1D518 Ugrave!=D9 Umacr=16A UnderBar|lowbar=5F UnderBrace=23DF UnderBracket|bbrk=23B5",
   "UnderParenthesis=23DD Union|bigcup|xcup=22C3 UnionPlus|uplus=228E Uogon=172 Uopf=1D54C UpArrowBar=2912",
   "UpArrowDownArrow|udarr=21C5 UpDownArrow|updownarrow|varr=2195 UpEquilibrium|udhar=296E",
   "UpTee|bot|bottom|perp=22A5 UpTeeArrow|mapstoup=21A5 UpperLeftArrow|nwarr|nwarrow=2196",
   "UpperRightArrow|nearr|nearrow=2197 Upsi|upsih=3D2 Upsilon=3A5 Uring=16E Uscr=1D4B0 Utilde=168 Uuml!=DC",
   "VDash=22AB Vbar=2AEB Vcy=412 Vdash=22A9 Vdashl=2AE6 Vee|bigvee|xvee=22C1 Verbar|Vert=2016",
   "VerticalBar|mid|shortmid|smid=2223 VerticalLine|verbar|vert=7C VerticalSeparator=2758",
   "VerticalTilde|wr|wreath=2240 VeryThinSpace|hairsp=200A Vfr=1D519 Vopf=1D54D Vscr=1D4B1 Vvdash=22AA Wcirc=174",
   "Wedge|bigwedge|xwedge=22C0 Wfr=1D51A Wopf=1D54E Wscr=1D4B2 Xfr=1D51B Xi=39E Xopf=1D54F Xscr=1D4B3 YAcy=42F",
   "YIcy=407 YUcy=42E Yacute!=DD Ycirc=176 Ycy=42B Yfr=1D51C Yopf=1D550 Yscr=1D4B4 Yuml=178 ZHcy=416 Zacute=179",
   "Zcaron=17D Zcy=417 Zdot=17B Zeta=396 Zfr|zeetrf=2128 Zopf|integers=2124 Zscr=1D4B5 aacute!=E1 abreve=103",
   "ac|mstpos=223E acE=223E,333 acd=223F acirc!=E2 acy=430 aelig!=E6 afr=1D51E agrave!=E0 alefsym|aleph=2135",
   "alpha=3B1 amacr=101 amalg=2A3F and|wedge=2227 andand=2A55 andd=2A5C andslope=2A58 andv=2A5A ang|angle=2220",
   "ange=29A4 angmsd|measuredangle=2221 angmsdaa=29A8 angmsdab=29A9 angmsdac=29AA angmsdad=29AB angmsdae=29AC",
   "angmsdaf=29AD angmsdag=29AE angmsdah=29AF angrt=221F angrtvb=22BE angrtvbd=299D angsph=2222 angzarr=237C",
   "aogon=105 aopf=1D552 apE=2A70 apacir=2A6F ape|approxeq=224A apid=224B apos=27 aring!=E5 ascr=1D4B6",
   "ast|midast=2A atilde!=E3 auml!=E4 awint=2A11 bNot=2AED backcong|bcong=224C backepsilon|bepsi=3F6",
   "backprime|bprime=2035 backsim|bsim=223D backsimeq|bsime=22CD barvee=22BD barwed|barwedge=2305 bbrktbrk=23B6",
   "bcy=431 bdquo|ldquor=201E bemptyv=29B0 beta=3B2 beth=2136 between|twixt=226C bfr=1D51F bigcirc|xcirc=25EF",
   "bigodot|xodot=2A00 bigoplus|xoplus=2A01 bigotimes|xotime=2A02 bigsqcup|xsqcup=2A06 bigstar|starf=2605",
   "bigtriangledown|xdtri=25BD bigtriangleup|xutri=25B3 biguplus|xuplus=2A04 bkarow|rbarr=290D",
   "blacklozenge|lozf=29EB blacktriangle|utrif=25B4 blacktriangledown|dtrif=25BE blacktriangleleft|ltrif=25C2",
   "blacktriangleright|rtrif=25B8 blank=2423 blk12=2592 blk14=2591 blk34=2593 block=2588 bne=3D,20E5",
   "bnequiv=2261,20E5 bnot=2310 bopf=1D553 bowtie=22C8 boxDL=2557 boxDR=2554 boxDl=2556 boxDr=2553 boxH=2550",
   "boxHD=2566 boxHU=2569 boxHd=2564 boxHu=2567 boxUL=255D boxUR=255A boxUl=255C boxUr=2559 boxV=2551 boxVH=256C",
   "boxVL=2563 boxVR=2560 boxVh=256B boxVl=2562 boxVr=255F boxbox=29C9 boxdL=2555 boxdR=2552 boxdl=2510",
   "boxdr=250C boxhD=2565 boxhU=2568 boxhd=252C boxhu=2534 boxminus|minusb=229F boxplus|plusb=229E",
   "boxtimes|timesb=22A0 boxuL=255B boxuR=2558 boxul=2518 boxur=2514 boxv=2502 boxvH=256A boxvL=2561 boxvR=255E",
   "boxvh=253C boxvl=2524 boxvr=251C brvbar!=A6 bscr=1D4B7 bsemi=204F bsol=5C bsolb=29C5 bsolhsub=27C8",
   "bull|bullet=2022 bumpE=2AAE cacute=107 cap=2229 capand=2A44 capbrcup=2A49 capcap=2A4B capcup=2A47",
   "capdot=2A40 caps=2229,FE00 caret=2041 ccaps=2A4D ccaron=10D ccedil!=E7 ccirc=109 ccups=2A4C ccupssm=2A50",
   "cdot=10B cemptyv=29B2 cent!=A2 cfr=1D520 chcy=447 check|checkmark=2713 chi=3C7 cir=25CB cirE=29C3 circ=2C6",
   "circeq|cire=2257 circlearrowleft|olarr=21BA circlearrowright|orarr=21BB circledS|oS=24C8",
   "circledast|oast=229B circledcirc|ocir=229A circleddash|odash=229D cirfnint=2A10 cirmid=2AEF cirscir=29C2",
   "clubs|clubsuit=2663 colon=3A comma=2C commat=40 comp|complement=2201 congdot=2A6D copf=1D554 copysr=2117",
   "crarr=21B5 cross=2717 cscr=1D4B8 csub=2ACF csube=2AD1 csup=2AD0 csupe=2AD2 ctdot=22EF cudarrl=2938",
   "cudarrr=2935 cuepr|curlyeqprec=22DE cuesc|curlyeqsucc=22DF cularr|curvearrowleft=21B6 cularrp=293D cup=222A",
   "cupbrcap=2A48 cupcap=2A46 cupcup=2A4A cupdot=228D cupor=2A45 cups=222A,FE00 curarr|curvearrowright=21B7",
   "curarrm=293C curlyvee|cuvee=22CE curlywedge|cuwed=22CF curren!=A4 cwint=2231 cylcty=232D dHar=2965",
   "dagger=2020 daleth=2138 dash|hyphen=2010 dbkarow|rBarr=290F dcaron=10F dcy=434 ddarr|downdownarrows=21CA",
   "ddotseq|eDDot=2A77 deg!=B0 delta=3B4 demptyv=29B1 dfisht=297F dfr=1D521 diamondsuit|diams=2666",
   "digamma|gammad=3DD disin=22F2 div|divide!=F7 divideontimes|divonx=22C7 djcy=452 dlcorn|llcorner=231E",
   "dlcrop=230D dollar=24 dopf=1D555 doteqdot|eDot=2251 dotminus|minusd=2238 dotplus|plusdo=2214",
   "dotsquare|sdotb=22A1 drcorn|lrcorner=231F drcrop=230C dscr=1D4B9 dscy=455 dsol=29F6 dstrok=111 dtdot=22F1",
   "dtri|triangledown=25BF dwangle=29A6 dzcy=45F dzigrarr=27FF eacute!=E9 easter=2A6E ecaron=11B",
   "ecir|eqcirc=2256 ecirc!=EA ecolon|eqcolon=2255 ecy=44D edot=117 efDot|fallingdotseq=2252 efr=1D522 eg=2A9A",
   "egrave!=E8 egs|eqslantgtr=2A96 egsdot=2A98 el=2A99 elinters=23E7 ell=2113 els|eqslantless=2A95 elsdot=2A97",
   "emacr=113 empty|emptyset|emptyv|varnothing=2205 emsp13=2004 emsp14=2005 emsp=2003 eng=14B ensp=2002",
   "eogon=119 eopf=1D556 epar=22D5 eparsl=29E3 eplus=2A71 epsi|epsilon=3B5 epsiv|straightepsilon|varepsilon=3F5",
   "equals=3D equest|questeq=225F equivDD=2A78 eqvparsl=29E5 erDot|risingdotseq=2253 erarr=2971 escr=212F",
   "eta=3B7 eth!=F0 euml!=EB euro=20AC excl=21 fcy=444 female=2640 ffilig=FB03 fflig=FB00 ffllig=FB04 ffr=1D523",
   "filig=FB01 fjlig=66,6A flat=266D fllig=FB02 fltns=25B1 fnof=192 fopf=1D557 fork|pitchfork=22D4 forkv=2AD9",
   "fpartint=2A0D frac12!|half=BD frac13=2153 frac14!=BC frac15=2155 frac16=2159 frac18=215B frac23=2154",
   "frac25=2156 frac34!=BE frac35=2157 frac38=215C frac45=2158 frac56=215A frac58=215D frac78=215E frasl=2044",
   "frown|sfrown=2322 fscr=1D4BB gEl|gtreqqless=2A8C gacute=1F5 gamma=3B3 gap|gtrapprox=2A86 gbreve=11F",
   "gcirc=11D gcy=433 gdot=121 gescc=2AA9 gesdot=2A80 gesdoto=2A82 gesdotol=2A84 gesl=22DB,FE00 gesles=2A94",
   "gfr=1D524 gimel=2137 gjcy=453 glE=2A92 gla=2AA5 glj=2AA4 gnE|gneqq=2269 gnap|gnapprox=2A8A gne|gneq=2A88",
   "gnsim=22E7 gopf=1D558 gscr=210A gsime=2A8E gsiml=2A90 gtcc=2AA7 gtcir=2A7A gtdot|gtrdot=22D7 gtlPar=2995",
   "gtquest=2A7C gtrarr=2978 gvertneqq|gvnE=2269,FE00 hardcy=44A harrcir=2948 harrw|leftrightsquigarrow=21AD",
   "hbar|hslash|planck|plankv=210F hcirc=125 hearts|heartsuit=2665 hellip|mldr=2026 hercon=22B9 hfr=1D525",
   "hksearow|searhk=2925 hkswarow|swarhk=2926 hoarr=21FF homtht=223B hookleftarrow|larrhk=21A9",
   "hookrightarrow|rarrhk=21AA hopf=1D559 horbar=2015 hscr=1D4BD hstrok=127 hybull=2043 iacute!=ED icirc!=EE",
   "icy=438 iecy=435 iexcl!=A1 ifr=1D526 igrave!=EC iiiint|qint=2A0C iiint|tint=222D iinfin=29DC iiota=2129",
   "ijlig=133 imacr=12B imath|inodot=131 imof=22B7 imped=1B5 incare=2105 infin=221E infintie=29DD",
   "intcal|intercal=22BA intlarhk=2A17 intprod|iprod=2A3C iocy=451 iogon=12F iopf=1D55A iota=3B9 iquest!=BF",
   "iscr=1D4BE isinE=22F9 isindot=22F5 isins=22F4 isinsv=22F3 itilde=129 iukcy=456 iuml!=EF jcirc=135 jcy=439",
   "jfr=1D527 jmath=237 jopf=1D55B jscr=1D4BF jsercy=458 jukcy=454 kappa=3BA kappav|varkappa=3F0 kcedil=137",
   "kcy=43A kfr=1D528 kgreen=138 khcy=445 kjcy=45C kopf=1D55C kscr=1D4C0 lAtail=291B lBarr=290E",
   "lEg|lesseqqgtr=2A8B lHar=2962 lacute=13A laemptyv=29B4 lambda=3BB langd=2991 lap|lessapprox=2A85 laquo!=AB",
   "larrbfs=291F larrfs=291D larrlp|looparrowleft=21AB larrpl=2939 larrsim=2973 larrtl|leftarrowtail=21A2",
   "lat=2AAB latail=2919 late=2AAD lates=2AAD,FE00 lbarr=290C lbbrk=2772 lbrace|lcub=7B lbrack|lsqb=5B",
   "lbrke=298B lbrksld=298F lbrkslu=298D lcaron=13E lcedil=13C lcy=43B ldca=2936 ldrdhar=2967 ldrushar=294B",
   "ldsh=21B2 le|leq=2264 leftleftarrows|llarr=21C7 leftthreetimes|lthree=22CB lescc=2AA8 lesdot=2A7F",
   "lesdoto=2A81 lesdotor=2A83 lesg=22DA,FE00 lesges=2A93 lessdot|ltdot=22D6 lfisht=297C lfr=1D529 lgE=2A91",
   "lharul=296A lhblk=2584 ljcy=459 llhard=296B lltri=25FA lmidot=140 lmoust|lmoustache=23B0 lnE|lneqq=2268",
   "lnap|lnapprox=2A89 lne|lneq=2A87 lnsim=22E6 loang=27EC loarr=21FD longmapsto|xmap=27FC",
   "looparrowright|rarrlp=21AC lopar=2985 lopf=1D55D loplus=2A2D lotimes=2A34 lowast=2217 loz|lozenge=25CA",
   "lpar=28 lparlt=2993 lrhard=296D lrm=200E lrtri=22BF lsaquo=2039 lscr=1D4C1 lsime=2A8D lsimg=2A8F",
   "lsquor|sbquo=201A lstrok=142 ltcc=2AA6 ltcir=2A79 ltimes=22C9 ltlarr=2976 ltquest=2A7B ltrPar=2996",
   "ltri|triangleleft=25C3 lurdshar=294A luruhar=2966 lvertneqq|lvnE=2268,FE00 mDDot=223A macr!|strns=AF",
   "male=2642 malt|maltese=2720 marker=25AE mcomma=2A29 mcy=43C mdash=2014 mfr=1D52A mho=2127 micro!=B5",
   "midcir=2AF0 minus=2212 minusdu=2A2A mlcp=2ADB models=22A7 mopf=1D55E mscr=1D4C2 mu=3BC multimap|mumap=22B8",
   "nGg=22D9,338 nGt=226B,20D2 nLeftarrow|nlArr=21CD nLeftrightarrow|nhArr=21CE nLl=22D8,338 nLt=226A,20D2",
   "nRightarrow|nrArr=21CF nVDash=22AF nVdash=22AE nacute=144 nang=2220,20D2 napE=2A70,338 napid=224B,338",
   "napos=149 natur|natural=266E ncap=2A43 ncaron=148 ncedil=146 ncongdot=2A6D,338 ncup=2A42 ncy=43D ndash=2013",
   "neArr=21D7 nearhk=2924 nedot=2250,338 nesear|toea=2928 nfr=1D52B nharr|nleftrightarrow=21AE nhpar=2AF2",
   "nis=22FC nisd=22FA njcy=45A nlE|nleqq=2266,338 nlarr|nleftarrow=219A nldr=2025 nopf=1D55F not!=AC",
   "notinE=22F9,338 notindot=22F5,338 notinvb=22F7 notinvc=22F6 notnivb=22FE notnivc=22FD nparsl=2AFD,20E5",
   "npart=2202,338 npolint=2A14 nrarr|nrightarrow=219B nrarrc=2933,338 nrarrw=219D,338 nscr=1D4C3 nsub=2284",
   "nsubE|nsubseteqq=2AC5,338 nsup=2285 nsupE|nsupseteqq=2AC6,338 ntilde!=F1 nu=3BD num=23 numero=2116",
   "numsp=2007 nvDash=22AD nvHarr=2904 nvap=224D,20D2 nvdash=22AC nvge=2265,20D2 nvgt=3E,20D2 nvinfin=29DE",
   "nvlArr=2902 nvle=2264,20D2 nvlt=3C,20D2 nvltrie=22B4,20D2 nvrArr=2903 nvrtrie=22B5,20D2 nvsim=223C,20D2",
   "nwArr=21D6 nwarhk=2923 nwnear=2927 oacute!=F3 ocirc!=F4 ocy=43E odblac=151 odiv=2A38 odsold=29BC oelig=153",
   "ofcir=29BF ofr=1D52C ogon=2DB ograve!=F2 ogt=29C1 ohbar=29B5 olcir=29BE olcross=29BB olt=29C0 omacr=14D",
   "omega=3C9 omicron=3BF omid=29B6 oopf=1D560 opar=29B7 operp=29B9 or|vee=2228 ord=2A5D order|orderof|oscr=2134",
   "ordf!=AA ordm!=BA origof=22B6 oror=2A56 orslope=2A57 orv=2A5B oslash!=F8 osol=2298 otilde!=F5 otimesas=2A36",
   "ouml!=F6 ovbar=233D para!=B6 parsim=2AF3 parsl=2AFD pcy=43F percnt=25 period=2E permil=2030 pertenk=2031",
   "pfr=1D52D phi=3C6 phiv|straightphi|varphi=3D5 phone=260E pi=3C0 piv|varpi=3D6 planckh=210E plus=2B",
   "plusacir=2A23 pluscir=2A22 plusdu=2A25 pluse=2A72 plussim=2A26 plustwo=2A27 pointint=2A15 popf=1D561",
   "pound!=A3 prE=2AB3 prap|precapprox=2AB7 precnapprox|prnap=2AB9 precneqq|prnE=2AB5 precnsim|prnsim=22E8",
   "prime=2032 profalar=232E profline=2312 profsurf=2313 prurel=22B0 pscr=1D4C5 psi=3C8 puncsp=2008 qfr=1D52E",
   "qopf=1D562 qprime=2057 qscr=1D4C6 quatint=2A16 quest=3F rAtail=291C rHar=2964 race=223D,331 racute=155",
   "raemptyv=29B3 rangd=2992 range=29A5 raquo!=BB rarrap=2975 rarrbfs=2920 rarrc=2933 rarrfs=291E rarrpl=2945",
   "rarrsim=2974 rarrtl|rightarrowtail=21A3 rarrw|rightsquigarrow=219D ratail=291A ratio=2236 rbbrk=2773",
   "rbrace|rcub=7D rbrack|rsqb=5D rbrke=298C rbrksld=298E rbrkslu=2990 rcaron=159 rcedil=157 rcy=440 rdca=2937",
   "rdldhar=2969 rdsh=21B3 rect=25AD rfisht=297D rfr=1D52F rharul=296C rho=3C1 rhov|varrho=3F1",
   "rightrightarrows|rrarr=21C9 rightthreetimes|rthree=22CC ring=2DA rlm=200F rmoust|rmoustache=23B1 rnmid=2AEE",
   "roang=27ED roarr=21FE ropar=2986 ropf=1D563 roplus=2A2E rotimes=2A35 rpar=29 rpargt=2994 rppolint=2A12",
   "rsaquo=203A rscr=1D4C7 rtimes=22CA rtri|triangleright=25B9 rtriltri=29CE ruluhar=2968 rx=211E sacute=15B",
   "scE=2AB4 scap|succapprox=2AB8 scaron=161 scedil=15F scirc=15D scnE|succneqq=2AB6 scnap|succnapprox=2ABA",
   "scnsim|succnsim=22E9 scpolint=2A13 scy=441 sdot=22C5 sdote=2A66 seArr=21D8 sect!=A7 semi=3B seswar|tosa=2929",
   "sext=2736 sfr=1D530 sharp=266F shchcy=449 shcy=448 shy!=AD sigma=3C3 sigmaf|sigmav|varsigma=3C2 simdot=2A6A",
   "simg=2A9E simgE=2AA0 siml=2A9D simlE=2A9F simne=2246 simplus=2A24 simrarr=2972 smashp=2A33 smeparsl=29E4",
   "smile|ssmile=2323 smt=2AAA smte=2AAC smtes=2AAC,FE00 softcy=44C sol=2F solb=29C4 solbar=233F sopf=1D564",
   "spades|spadesuit=2660 sqcaps=2293,FE00 sqcups=2294,FE00 sscr=1D4C8 star=2606 sub|subset=2282",
   "subE|subseteqq=2AC5 subdot=2ABD subedot=2AC3 submult=2AC1 subnE|subsetneqq=2ACB subne|subsetneq=228A",
   "subplus=2ABF subrarr=2979 subsim=2AC7 subsub=2AD5 subsup=2AD3 sung=266A sup1!=B9 sup2!=B2 sup3!=B3",
   "supE|supseteqq=2AC6 supdot=2ABE supdsub=2AD8 supedot=2AC4 suphsol=27C9 suphsub=2AD7 suplarr=297B",
   "supmult=2AC2 supnE|supsetneqq=2ACC supne|supsetneq=228B supplus=2AC0 supsim=2AC8 supsub=2AD4 supsup=2AD6",
   "swArr=21D9 swnwar=292A szlig!=DF target=2316 tau=3C4 tcaron=165 tcedil=163 tcy=442 telrec=2315 tfr=1D531",
   "theta=3B8 thetasym|thetav|vartheta=3D1 thorn!=FE times!=D7 timesbar=2A31 timesd=2A30 topbot=2336 topcir=2AF1",
   "topf=1D565 topfork=2ADA tprime=2034 triangle|utri=25B5 triangleq|trie=225C tridot=25EC triminus=2A3A",
   "triplus=2A39 trisb=29CD tritime=2A3B trpezium=23E2 tscr=1D4C9 tscy=446 tshcy=45B tstrok=167 uHar=2963",
   "uacute!=FA ubrcy=45E ubreve=16D ucirc!=FB ucy=443 udblac=171 ufisht=297E ufr=1D532 ugrave!=F9 uhblk=2580",
   "ulcorn|ulcorner=231C ulcrop=230F ultri=25F8 umacr=16B uogon=173 uopf=1D566 upsi|upsilon=3C5",
   "upuparrows|uuarr=21C8 urcorn|urcorner=231D urcrop=230E uring=16F urtri=25F9 uscr=1D4CA utdot=22F0 utilde=169",
   "uuml!=FC uwangle=29A7 vBar=2AE8 vBarv=2AE9 vangrt=299C varsubsetneq|vsubne=228A,FE00",
   "varsubsetneqq|vsubnE=2ACB,FE00 varsupsetneq|vsupne=228B,FE00 varsupsetneqq|vsupnE=2ACC,FE00 vcy=432",
   "veebar=22BB veeeq=225A vellip=22EE vfr=1D533 vopf=1D567 vscr=1D4CB vzigzag=299A wcirc=175 wedbar=2A5F",
   "wedgeq=2259 weierp|wp=2118 wfr=1D534 wopf=1D568 wscr=1D4CC xfr=1D535 xi=3BE xnis=22FB xopf=1D569 xscr=1D4CD",
   "yacute!=FD yacy=44F ycirc=177 ycy=44B yen!=A5 yfr=1D536 yicy=457 yopf=1D56A yscr=1D4CE yucy=44E yuml!=FF",
   "zacute=17A zcaron=17E zcy=437 zdot=17C zeta=3B6 zfr=1D537 zhcy=436 zigrarr=21DD zopf=1D56B zscr=1D4CF",
   "zwj=200D zwnj=200C"]

def hexNumber (digits : List Char) : Nat :=
  digits.foldl (fun n c =>
    n * 16 + (if c.isDigit then c.toNat - '0'.toNat else c.toUpper.toNat - 'A'.toNat + 10)) 0

def spellings (name : List Char) : List String :=
  let word := name.takeWhile (· ≠ '!')
  let closed := String.ofList (word ++ [';'])
  if word.length < name.length then [String.ofList word, closed] else [closed]

def readEntities (entry : List Char) : List (String × List Char) :=
  match Text.breakOn? ['='] entry with
  | none => []
  | some (names, value) =>
    let characters := (Text.pieces ',' value).map fun digits => Char.ofNat (hexNumber digits)
    ((Text.pieces '|' names).flatMap spellings).map fun name => (name, characters)

def entities : Std.HashMap String (List Char) :=
  entityLines.foldl
    (fun table line => ((Text.pieces ' ' line.toList).flatMap readEntities).foldl
      (fun table (name, characters) => table.insert name characters) table)
    {}

/-- The longest name at the front of a text, with its length and its characters. -/
def entity? (cs : List Char) : Option (Nat × List Char) :=
  let word := (cs.takeWhile Char.isAlphanum).take 40
  let word := if (cs.drop word.length).head? == some ';' then word ++ [';'] else word
  (List.range word.length).findSome? fun short =>
    let length := word.length - short
    (entities[String.ofList (word.take length)]?).map fun characters => (length, characters)

end PageCompiler.Document
