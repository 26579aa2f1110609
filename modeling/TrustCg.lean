import TrustCg.Codegen.DwarfCfi
import TrustCg.Codegen.LsdaSound
import TrustCg.Lower.AbiSound
import TrustCg.Lower.ConstDivSound
import TrustCg.Lower.MagicSearch
import TrustCg.Lower.SwitchSound
import TrustCg.Opt.ConstMaterialize
import TrustCg.Opt.CopyPropSound
import TrustCg.Opt.CseSound
import TrustCg.Opt.Dce
import TrustCg.Opt.DomFrontier
import TrustCg.Opt.GvnSound
import TrustCg.Opt.ReachingConst
import TrustCg.Opt.TailCall
import TrustCg.RegAlloc.CoalesceSound
import TrustCg.RegAlloc.GreedySound
import TrustCg.RegAlloc.Interference
import TrustCg.RegAlloc.PhiSound
import TrustCg.RegAlloc.SlotInit
import TrustCg.Verify.SatBlastSound
import TrustCg.Verify.SmtCompiledSound
import TrustCg.Verify.SmtSound
import TrustCg.Verify.SsaLoopSound
